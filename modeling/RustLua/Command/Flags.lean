import RustLua.Build.Target

/-!
The command line: a verb, flags in any place, and arguments. A flag has a long
name and may have a letter; a switch needs no value. Two dashes end the flags.
-/

namespace RustLua.Command

inductive Verb where
  | build | check | lint
deriving DecidableEq, Repr

def Verb.all : List Verb := [.build, .check, .lint]

def Verb.name : Verb → String
  | .build => "build"
  | .check => "check"
  | .lint => "lint"

def Verb.ofName? (text : Bytes) : Option Verb :=
  Verb.all.find? fun v => Bytes.ofString v.name = text

inductive Flag where
  | verbose | format | config | output | emit | help
deriving DecidableEq, Repr

namespace Flag

def name : Flag → String
  | .verbose => "verbose"
  | .format => "format"
  | .config => "config"
  | .output => "output"
  | .emit => "emit"
  | .help => "help"

def letter? : Flag → Option Char
  | .verbose => some 'v'
  | .output => some 'o'
  | .help => some 'h'
  | .format | .config | .emit => none

def isSwitch : Flag → Bool
  | .verbose | .help => true
  | .format | .config | .output | .emit => false

/-- How messages name a flag. -/
def shownName (f : Flag) : Bytes :=
  match f.letter? with
  | some c => "-" ++ [Bytes.ofAscii c] ++ ", --" ++ f.name
  | none => "--" ++ f.name

/-- The flags that every verb has, and that may stand before it. -/
def shared : List Flag := [.verbose, .format, .config]

/-- The flags of a verb, or of no verb. -/
def known : Option Verb → List Flag
  | some .build => .output :: .emit :: .help :: shared
  | _ => .help :: shared

def byName? (flags : List Flag) (name : Bytes) : Option Flag :=
  flags.find? fun f => Bytes.ofString f.name = name

def byLetter? (flags : List Flag) (b : UInt8) : Option Flag :=
  flags.find? fun f => (f.letter?.map Bytes.ofAscii) = some b

end Flag

/-- What the flags say. -/
structure Options where
  verbose : Bool := false
  help : Bool := false
  format : Bytes := "text"
  config : Bytes := []
  output : Bytes := []
  emit : Bytes := "lua"
deriving DecidableEq, Repr

/-- A command line that asks for nothing that can be done. -/
inductive UsageError where
  | unknownCommand (name : Bytes)
  | unknownFlag (name : Bytes)
  | unknownLetter (b : UInt8) (group : Bytes)
  | badSyntax (arg : Bytes)
  | needsValue (arg : Bytes)
  | letterNeedsValue (b : UInt8) (group : Bytes)
  | invalidSwitch (flag : Flag) (value : Bytes)
  | argumentCount (n : Nat)
deriving DecidableEq, Repr

/-! ## Suggestions -/

/-- One row of the table of edit distances: from the row above, the distance to its left
and the bytes of the other text. -/
def distanceRow (b : UInt8) (left : Nat) : List Nat → Bytes → List Nat
  | diagonal :: above :: row, c :: rest =>
    let best := if b = c then diagonal else min (min left above) diagonal + 1
    best :: distanceRow b best (above :: row) rest
  | _, _ => []

/-- The number of insertions, deletions and replacements from one text to the other. -/
def editDistance (a b : Bytes) : Nat :=
  let rows := a.foldl (fun row x =>
    let first := row.headD 0 + 1
    first :: distanceRow x first row b) (List.range (b.length + 1))
  rows.getLastD 0

/-- The commands that a misspelt one may stand for. -/
def suggestions (typed : Bytes) : List String :=
  let lower := Unicode.lowerText typed
  ["build", "check", "lint", "completion"].filter fun name =>
    editDistance lower name ≤ 2 || lower.isPrefixOf (Bytes.ofString name)

def suggestionLine (name : String) : Bytes := "\t" ++ Bytes.ofString name ++ "\n"

def suggestionText (names : List String) : Bytes :=
  Bytes.onlyIf (!names.isEmpty) ("\n\nDid you mean this?\n" ++
    names.flatMap suggestionLine)

/-- A byte as a character in single quotes. -/
def quotedLetter (b : UInt8) : Bytes :=
  let inside : Bytes :=
    if b = Ascii.apostrophe then "\\'"
    else if b = Ascii.quote then [b]
    else Bytes.quotedChar (Char.ofNat b.toNat)
  "'" ++ inside ++ "'"

def UsageError.message : UsageError → Bytes
  | .unknownCommand name =>
    "unknown command " ++ Bytes.quoted name ++ " for \"smythc\"" ++
      suggestionText (suggestions name)
  | .unknownFlag name => "unknown flag: --" ++ name
  | .unknownLetter b group => "unknown shorthand flag: " ++ quotedLetter b ++ " in -" ++ group
  | .badSyntax arg => "bad flag syntax: " ++ arg
  | .needsValue arg => "flag needs an argument: " ++ arg
  | .letterNeedsValue b group =>
    "flag needs an argument: " ++ quotedLetter b ++ " in -" ++ group
  | .invalidSwitch flag value =>
    "invalid argument " ++ Bytes.quoted value ++ " for " ++ Bytes.quoted flag.shownName ++
      " flag: strconv.ParseBool: parsing " ++ Bytes.quoted value ++ ": invalid syntax"
  | .argumentCount n => "accepts 1 arg(s), received " ++ Bytes.decimal n

/-! ## The verb -/

def dashes : Bytes := "--"

def startsWithDash (arg : Bytes) : Bool := arg.headD 0 = Ascii.minus

/-- Does the value of a flag stand in the next argument, as far as is known before the
verb is? -/
def takesNext (arg : Bytes) : Bool :=
  !arg.elem (Bytes.ofAscii '=') &&
    if dashes.isPrefixOf arg then
      !((Flag.byName? Flag.shared (arg.drop 2)).map Flag.isSwitch).getD false
    else startsWithDash arg && arg.length = 2 &&
      !((Flag.byLetter? Flag.shared (arg.getD 1 0)).map Flag.isSwitch).getD false

/-- The first argument that is neither a flag nor the value of one. -/
def firstWord : List Bytes → Option Bytes
  | [] => none
  | arg :: args =>
    if arg = dashes then none
    else if takesNext arg then
      match args with
      | _ :: next :: more => firstWord (next :: more)
      | _ => none
    else if arg.isEmpty || startsWithDash arg then firstWord args
    else some arg

/-- The arguments without the first one that is the given word. -/
def withoutWord (word : Bytes) : List Bytes → List Bytes
  | [] => []
  | arg :: args =>
    if arg = dashes then arg :: args
    else if takesNext arg then
      match args with
      | value :: more => arg :: value :: withoutWord word more
      | [] => [arg]
    else if arg = word then args
    else arg :: withoutWord word args

/-- Commands that show help or write completion scripts. -/
def helpWords : List String := ["help", "completion"]

/-! ## Flags -/

def readSwitch? (value : Bytes) : Option Bool :=
  if ["1", "t", "T", "TRUE", "true", "True"].any fun (s : String) => Bytes.ofString s = value then
    some true
  else if ["0", "f", "F", "FALSE", "false", "False"].any fun (s : String) =>
      Bytes.ofString s = value then some false
  else none

def setFlag (flag : Flag) (value : Bytes) (o : Options) : Except UsageError Options :=
  match flag with
  | .format => .ok { o with format := value }
  | .config => .ok { o with config := value }
  | .output => .ok { o with output := value }
  | .emit => .ok { o with emit := value }
  | .verbose | .help =>
    match readSwitch? value with
    | none => .error (.invalidSwitch flag value)
    | some b => .ok (if flag = .help then { o with help := b } else { o with verbose := b })

/-- A flag by its long name, and whether it took the next argument for its value. -/
def longFlag (flags : List Flag) (arg : Bytes) (next : Option Bytes) (o : Options) :
    Except UsageError (Options × Bool) := do
  let text := arg.drop 2
  if text.headD Ascii.minus = Ascii.minus ∨ text.headD 0 = Bytes.ofAscii '=' then
    throw (.badSyntax arg)
  let name := text.takeWhile (· != Bytes.ofAscii '=')
  match Flag.byName? flags name with
  | none => throw (.unknownFlag name)
  | some flag =>
    if name.length < text.length then
      return (← setFlag flag (text.drop (name.length + 1)) o, false)
    else if flag.isSwitch then return (← setFlag flag "true" o, false)
    else match next with
      | some value => return (← setFlag flag value o, true)
      | none => throw (.needsValue arg)

/-- Flags by their letters; one that takes a value ends the group. -/
def letterFlags (flags : List Flag) (next : Option Bytes) :
    Bytes → Options → Except UsageError (Options × Bool)
  | [], o => .ok (o, false)
  | b :: rest, o =>
    if (Bytes.ofString "test.").isPrefixOf (b :: rest) then .ok (o, false)
    else match Flag.byLetter? flags b with
      | none => .error (.unknownLetter b (b :: rest))
      | some flag =>
        if rest.headD 0 = Bytes.ofAscii '=' ∧ 2 ≤ rest.length then do
          return (← setFlag flag (rest.drop 1) o, false)
        else if flag.isSwitch then do
          letterFlags flags next rest (← setFlag flag "true" o)
        else if !rest.isEmpty then do return (← setFlag flag rest o, false)
        else match next with
          | some value => do return (← setFlag flag value o, true)
          | none => .error (.letterNeedsValue b (b :: rest))

/-- Flags and arguments apart. After a flag with its value in the next argument, `skip`
leaves that one out. -/
def splitFlags (flags : List Flag) :
    Bool → Options → List Bytes → Except UsageError (Options × List Bytes)
  | _, o, [] => .ok (o, [])
  | true, o, _ :: args => splitFlags flags false o args
  | false, o, arg :: args =>
    if !startsWithDash arg || arg.length = 1 then do
      let (o, others) ← splitFlags flags false o args
      return (o, arg :: others)
    else if arg = dashes then .ok (o, args)
    else do
      let (o, skip) ←
        if dashes.isPrefixOf arg then longFlag flags arg args.head? o
        else letterFlags flags args.head? (arg.drop 1) o
      splitFlags flags skip o args

/-! ## Requests -/

/-- What a command line asks for. -/
inductive Request where
  | help
  | run (verb : Verb) (options : Options) (path : Bytes)
deriving DecidableEq, Repr

/-- A request of a verb, or help if there is no verb. -/
def requestOf (verb? : Option Verb) (args : List Bytes) : Except UsageError Request := do
  let (options, others) ← splitFlags (Flag.known verb?) false {} args
  if options.help then return .help
  match verb?, others with
  | none, _ => return .help
  | some verb, [path] => return .run verb options path
  | some _, others => throw (.argumentCount others.length)

def request (args : List Bytes) : Except UsageError Request :=
  match firstWord args with
  | none => requestOf none args
  | some word =>
    match Verb.ofName? word with
    | some verb => requestOf (some verb) (withoutWord word args)
    | none =>
      if helpWords.any fun w => Bytes.ofString w = word then .ok .help
      else .error (.unknownCommand word)

end RustLua.Command
