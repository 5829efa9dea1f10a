import RustLua.Proofs.Token.Lexemes

/-! # What stands between tokens

Layout bytes, line comments up to the end of their line, and block comments, which nest.
Block comments are given by a grammar: the body of one is made of single bytes and of whole
comments. Reading takes exactly the comment that the grammar gives, or runs to the end if
there is none. From any point the tokens of a text are those behind its gap (`gap_of`). -/
namespace RustLua.Token

variable {text rest body gap first : Bytes} {b : UInt8} {depth : Nat} {pos : Pos}

/-- The end of the source: no more bytes, or a NUL. -/
def AtEnd (rest : Bytes) : Prop := ∀ b ∈ rest.head?, b = Ascii.nul

/-! ## Block comments -/

def commentOpen : Bytes := [Ascii.slash, Ascii.star]

def commentClose : Bytes := [Ascii.star, Ascii.slash]

/-- Two bytes that open or close a comment. -/
def IsMark (b next : UInt8) : Prop :=
  (b = Ascii.slash ∧ next = Ascii.star) ∨ (b = Ascii.star ∧ next = Ascii.slash)

/-- What stands between the marks of a comment: bytes that form no mark with the byte behind
them, and whole comments. -/
inductive CommentBody : Bytes → Prop
  | nil : CommentBody []
  | byte {b : UInt8} {body : Bytes} (hb : b ≠ Ascii.nul)
      (hm : ¬ IsMark b ((body ++ commentClose).headD 0)) (h : CommentBody body) :
      CommentBody (b :: body)
  | comment {inner body : Bytes} (hi : CommentBody inner) (h : CommentBody body) :
      CommentBody (commentOpen ++ inner ++ commentClose ++ body)

/-- A block comment with its marks. -/
def BlockComment (text : Bytes) : Prop :=
  ∃ body, CommentBody body ∧ text = commentOpen ++ body ++ commentClose

/-- A block comment that the end of the source leaves open. -/
def OpenComment (text : Bytes) : Prop :=
  commentOpen <+: text ∧ Ascii.nul ∉ text ∧ ∀ first, first <+: text → ¬ BlockComment first

theorem blockCommentWidth_open (depth : Nat) (rest : Bytes) :
    blockCommentWidth depth (Ascii.slash :: Ascii.star :: rest) =
      2 + blockCommentWidth (depth + 1) rest := by
  rw [blockCommentWidth, if_neg (by decide), if_pos ⟨rfl, rfl⟩]

theorem blockCommentWidth_close (depth : Nat) (rest : Bytes) :
    blockCommentWidth depth (Ascii.star :: Ascii.slash :: rest) =
      if depth ≤ 1 then 2 else 2 + blockCommentWidth (depth - 1) rest := by
  rw [blockCommentWidth, if_neg (by decide), if_neg (by decide), if_pos ⟨rfl, rfl⟩]

theorem blockCommentWidth_byte (hb : b ≠ Ascii.nul) (hm : ¬ IsMark b (rest.headD 0)) :
    blockCommentWidth depth (b :: rest) = 1 + blockCommentWidth depth rest := by
  cases rest with
  | nil => exact if_neg hb
  | cons c rest =>
    have hopen : ¬ (b = Ascii.slash ∧ c = Ascii.star) := fun h => hm (.inl h)
    have hclose : ¬ (b = Ascii.star ∧ c = Ascii.slash) := fun h => hm (.inr h)
    rw [blockCommentWidth, if_neg hb, if_neg hopen, if_neg hclose]

theorem blockCommentWidth_end (h : text.headD 0 = 0) : blockCommentWidth depth text = 0 := by
  rcases text with _ | ⟨b, _ | ⟨c, rest⟩⟩
  · rfl
  · exact if_pos h
  · exact if_pos h

theorem headD_append_close (body rest : Bytes) :
    (body ++ commentClose ++ rest).headD 0 = (body ++ commentClose).headD 0 := by
  cases body <;> rfl

/-- A comment is read to its closing mark. -/
theorem blockCommentWidth_body (h : CommentBody body) (depth : Nat) (rest : Bytes) :
    blockCommentWidth (depth + 1) (body ++ commentClose ++ rest) =
      body.length + 2 + if depth = 0 then 0 else blockCommentWidth depth rest := by
  induction h generalizing depth rest with
  | nil =>
    rw [List.length_nil, Nat.zero_add]
    refine (blockCommentWidth_close (depth + 1) rest).trans ?_
    cases depth with
    | zero => rfl
    | succ depth => rw [if_neg (by omega), if_neg (by omega), Nat.add_sub_cancel]
  | byte hb hm _ ih =>
    rw [← headD_append_close _ rest] at hm
    rw [List.cons_append, List.cons_append, blockCommentWidth_byte hb hm, ih, List.length_cons]
    omega
  | @comment inner body _ _ ihInner ihBody =>
    have hsplit : commentOpen ++ inner ++ commentClose ++ body ++ commentClose ++ rest =
        Ascii.slash :: Ascii.star :: (inner ++ commentClose ++ (body ++ commentClose ++ rest)) := by
      simp [commentOpen]
    rw [hsplit, blockCommentWidth_open, ihInner, if_neg (Nat.succ_ne_zero depth), ihBody]
    simp only [commentOpen, commentClose, List.length_append, List.length_cons, List.length_nil]
    omega

theorem blockCommentWidth_eq (h : BlockComment first) (rest : Bytes) :
    blockCommentWidth 0 (first ++ rest) = first.length := by
  obtain ⟨body, hbody, rfl⟩ := h
  have hsplit : commentOpen ++ body ++ commentClose ++ rest =
      Ascii.slash :: Ascii.star :: (body ++ commentClose ++ rest) := by
    simp [commentOpen]
  rw [hsplit, blockCommentWidth_open, blockCommentWidth_body hbody]
  simp only [commentOpen, commentClose, List.length_append, List.length_cons, List.length_nil,
    if_pos]
  omega

/-- Text that closes `depth` comments, the outermost with its last byte. -/
inductive Closing : Nat → Bytes → Prop
  | last : Closing 1 commentClose
  | close {depth : Nat} {text : Bytes} (h : Closing (depth + 1) text) :
      Closing (depth + 2) (commentClose ++ text)
  | opened {depth : Nat} {text : Bytes} (h : Closing (depth + 2) text) :
      Closing (depth + 1) (commentOpen ++ text)
  | byte {depth : Nat} {b : UInt8} {text : Bytes} (hb : b ≠ Ascii.nul)
      (hm : ¬ IsMark b (text.headD 0)) (h : Closing depth text) : Closing depth (b :: text)

/-- The innermost comment has a body of its own. -/
theorem Closing.split (h : Closing depth text) :
    ∃ body rest, text = body ++ commentClose ++ rest ∧ CommentBody body ∧
      ((depth = 1 ∧ rest = []) ∨ ∃ outer, depth = outer + 2 ∧ Closing (outer + 1) rest) := by
  -- not on the derivation: behind an inner comment the argument is used once more
  induction hn : text.length using Nat.strongRecOn generalizing depth text with
  | _ n ih =>
    subst hn
    cases h with
    | last => exact ⟨[], [], rfl, .nil, .inl ⟨rfl, rfl⟩⟩
    | close h => exact ⟨[], _, rfl, .nil, .inr ⟨_, rfl, h⟩⟩
    | @opened depth text h =>
      obtain ⟨inner, more, rfl, hinner, ⟨hone, _⟩ | ⟨outer, houter, hmore⟩⟩ :=
        ih text.length (by rw [List.length_append]; exact Nat.lt_add_of_pos_left (by decide)) h rfl
      · omega
      · obtain rfl : depth = outer := by omega
        obtain ⟨body, rest, rfl, hbody, hrest⟩ :=
          ih more.length (by simp [commentOpen, commentClose]; omega) hmore rfl
        exact ⟨commentOpen ++ inner ++ commentClose ++ body, rest, by simp,
          .comment hinner hbody, hrest⟩
    | @byte _ b text hb hm h =>
      obtain ⟨body, rest, rfl, hbody, hrest⟩ := ih text.length (by simp) h rfl
      rw [headD_append_close] at hm
      exact ⟨b :: body, rest, rfl, .byte hb hm hbody, hrest⟩

theorem isMark_of_take {n : Nat} (h : IsMark b ((text.take n).headD 0)) :
    IsMark b (text.headD 0) := by
  rcases text with _ | ⟨c, text⟩
  · rwa [List.take_nil] at h
  · cases n with
    | zero =>
      rcases h with ⟨_, h⟩ | ⟨_, h⟩
      · cases h
      · cases h
    | succ n => exact h

/-- Reading inside comments ends where they are all closed, or at the end. -/
theorem closing_or_atEnd (hd : 0 < depth) (text : Bytes) :
    Closing depth (text.take (blockCommentWidth depth text)) ∨
      (AtEnd (text.drop (blockCommentWidth depth text)) ∧
        Ascii.nul ∉ text.take (blockCommentWidth depth text)) := by
  fun_induction blockCommentWidth depth text with
  | case1 | case2 | case4 => exact .inr ⟨by simp [AtEnd], by simp⟩
  | case3 depth b hb =>
    refine .inr ⟨by simp [AtEnd, blockCommentWidth], ?_⟩
    simpa [blockCommentWidth] using Ne.symm hb
  | case5 depth b c rest hb hmark ih =>
    obtain ⟨rfl, rfl⟩ := hmark
    obtain ⟨outer, rfl⟩ := Nat.exists_eq_succ_of_ne_zero (Nat.pos_iff_ne_zero.mp hd)
    rw [Nat.add_comm 2]
    rcases ih (Nat.succ_pos _) with h | ⟨hend, hnul⟩
    · exact .inl (.opened h)
    · exact .inr ⟨hend, by simpa [Ascii.nul, Ascii.slash, Ascii.star] using hnul⟩
  | case6 depth b c rest hb _ hmark hone =>
    obtain ⟨rfl, rfl⟩ := hmark
    obtain rfl : depth = 1 := by omega
    exact .inl .last
  | case7 depth b c rest hb _ hmark hmore ih =>
    obtain ⟨rfl, rfl⟩ := hmark
    obtain ⟨outer, rfl⟩ : ∃ outer, depth = outer + 2 := ⟨depth - 2, by omega⟩
    rw [Nat.add_comm 2]
    rcases ih (Nat.succ_pos _) with h | ⟨hend, hnul⟩
    · exact .inl (.close h)
    · exact .inr ⟨hend, by simpa [Ascii.nul, Ascii.slash, Ascii.star] using hnul⟩
  | case8 depth b c rest hb hopen hclose ih =>
    have hmark : ¬ IsMark b ((c :: rest).headD 0) := not_or.mpr ⟨hopen, hclose⟩
    rw [Nat.add_comm 1]
    rcases ih hd with h | ⟨hend, hnul⟩
    · exact .inl (.byte hb (fun hm => hmark (isMark_of_take hm)) h)
    · refine .inr ⟨hend, ?_⟩
      rw [List.take_succ_cons, List.mem_cons, not_or]
      exact ⟨Ne.symm hb, hnul⟩

theorem blockCommentWidth_le (depth : Nat) (text : Bytes) :
    blockCommentWidth depth text ≤ text.length := by
  fun_induction blockCommentWidth depth text with
  | case1 | case2 | case4 => exact Nat.zero_le _
  | case3 => exact Nat.le_refl 1
  | case5 _ _ _ _ _ _ ih | case7 _ _ _ _ _ _ _ _ ih | case8 _ _ _ _ _ _ _ ih =>
    simp only [List.length_cons] at ih ⊢
    omega
  | case6 =>
    simp only [List.length_cons]
    omega

/-- What is read at an opening mark is a comment, or an open one up to the end. -/
theorem blockComment_or_open (rest : Bytes) :
    let text := Ascii.slash :: Ascii.star :: rest
    BlockComment (text.take (blockCommentWidth 0 text)) ∨
      (AtEnd (text.drop (blockCommentWidth 0 text)) ∧
        OpenComment (text.take (blockCommentWidth 0 text))) := by
  intro text
  have hwidth : blockCommentWidth 0 text = blockCommentWidth 1 rest + 2 := by
    rw [blockCommentWidth_open, Nat.add_comm]
  rcases closing_or_atEnd Nat.one_pos rest with h | ⟨hend, hnul⟩
  · obtain ⟨body, more, htake, hbody, ⟨_, rfl⟩ | ⟨outer, houter, _⟩⟩ := h.split
    · refine .inl ⟨body, hbody, ?_⟩
      rw [hwidth, List.take_succ_cons, List.take_succ_cons, htake, List.append_nil]
      rfl
    · omega
  · by_cases hblock : ∃ first, first <+: text.take (blockCommentWidth 0 text) ∧ BlockComment first
    · obtain ⟨first, hfirst, hblock⟩ := hblock
      obtain ⟨more, hmore⟩ := hfirst.trans (List.take_prefix _ text)
      have hlength : blockCommentWidth 0 text = first.length := by
        rw [← hmore]
        exact blockCommentWidth_eq hblock more
      refine .inl ?_
      rw [hlength, ← hmore, List.take_left]
      exact hblock
    · refine .inr ⟨by rw [hwidth]; exact hend, ?_, ?_, fun first hp hb => hblock ⟨first, hp, hb⟩⟩
      · rw [hwidth]
        exact List.prefix_append _ _
      · rw [hwidth]
        simpa [text, Ascii.nul, Ascii.slash, Ascii.star] using hnul

/-! ## Gaps -/

/-- A text inside one line of the source. -/
def OneLine (text : Bytes) : Prop := Ascii.newline ∉ text ∧ Ascii.nul ∉ text

/-- A line comment, without the newline that ends it. -/
def LineComment (text : Bytes) : Prop :=
  ∃ words, OneLine words ∧ text = Ascii.slash :: Ascii.slash :: words

/-- One piece of layout. A line comment comes with the newline that ends it. -/
inductive Spacer : Bytes → Prop
  | blank {b : UInt8} (hb : Ascii.isLayout b = true) : Spacer [b]
  | line {comment : Bytes} (hc : LineComment comment) : Spacer (comment ++ [Ascii.newline])
  | block {comment : Bytes} (hc : BlockComment comment) : Spacer comment

/-- A comment that the end of the source ends. -/
inductive Unfinished : Bytes → Prop
  | line {comment : Bytes} (hc : LineComment comment) : Unfinished comment
  | block {comment : Bytes} (hc : OpenComment comment) : Unfinished comment

/-- What stands between two tokens. -/
def Layout (gap : Bytes) : Prop :=
  ∃ spacers : List Bytes, (∀ s ∈ spacers, Spacer s) ∧ gap = spacers.flatten

/-- What stands behind the last token. -/
def LastLayout (gap : Bytes) : Prop :=
  Layout gap ∨ ∃ front comment, Layout front ∧ Unfinished comment ∧ gap = front ++ comment

theorem layout_nil : Layout [] := ⟨[], by simp, rfl⟩

theorem Layout.cons {s : Bytes} (hs : Spacer s) (h : Layout gap) : Layout (s ++ gap) := by
  obtain ⟨spacers, hall, rfl⟩ := h
  exact ⟨s :: spacers, List.forall_mem_cons.mpr ⟨hs, hall⟩, rfl⟩

theorem LastLayout.cons {s : Bytes} (hs : Spacer s) (h : LastLayout gap) :
    LastLayout (s ++ gap) := by
  rcases h with h | ⟨front, comment, hfront, hcomment, rfl⟩
  · exact .inl (h.cons hs)
  · exact .inr ⟨s ++ front, comment, hfront.cons hs, hcomment, (List.append_assoc ..).symm⟩

/-! ## Skipping a gap -/

theorem tokensFrom_skip {skip : Nat} (h : skip ≤ text.length) (pos : Pos) :
    tokensFrom skip text pos = tokensFrom 0 (text.drop skip) (pos.afterAll (text.take skip)) := by
  induction text generalizing skip pos with
  | nil =>
    obtain rfl := Nat.le_zero.mp h
    rfl
  | cons b rest ih =>
    cases skip with
    | zero => rfl
    | succ skip =>
      rw [tokensFrom]
      exact ih (Nat.le_of_succ_le_succ h) (pos.after b)

/-- Layout and comments give no tokens. -/
theorem tokensFrom_triviaWidth (h : triviaWidth text ≠ 0) (pos : Pos) :
    tokensFrom 0 text pos = tokensFrom (triviaWidth text) text pos := by
  cases text with
  | nil => exact absurd rfl h
  | cons b rest =>
    rw [tokensFrom, if_pos (Nat.pos_iff_ne_zero.mpr h)]
    obtain ⟨w, hw⟩ := Nat.exists_eq_succ_of_ne_zero h
    rw [hw]
    rfl

theorem tokensFrom_trivia (hfirst : first ≠ []) (h : triviaWidth (first ++ rest) = first.length)
    (pos : Pos) : tokensFrom 0 (first ++ rest) pos = tokensFrom 0 rest (pos.afterAll first) := by
  have hne : triviaWidth (first ++ rest) ≠ 0 := by
    rw [h]
    exact (List.length_pos_iff.mpr hfirst).ne'
  rw [tokensFrom_triviaWidth hne, h, tokensFrom_skip (by simp), List.drop_left, List.take_left]

/-- A piece of text that is skipped as a whole. -/
def Skipped (first rest : Bytes) : Prop :=
  ∀ pos, tokensFrom 0 (first ++ rest) pos = tokensFrom 0 rest (Pos.afterAll pos first)

theorem Skipped.append {more : Bytes} (h : Skipped first (more ++ rest)) (hm : Skipped more rest) :
    Skipped (first ++ more) rest := by
  intro pos
  rw [List.append_assoc, h, hm, Pos.afterAll, Pos.afterAll, Pos.afterAll, List.foldl_append]

theorem skipped_blank (hb : Ascii.isLayout b = true) (rest : Bytes) : Skipped [b] rest := by
  refine tokensFrom_trivia (List.cons_ne_nil b []) ?_
  rw [List.singleton_append, triviaWidth, if_pos hb]
  rfl

theorem skipped_lineComment (hc : LineComment first)
    (hrest : ∀ b ∈ rest.head?, b = Ascii.newline ∨ b = Ascii.nul) : Skipped first rest := by
  obtain ⟨words, ⟨hnewline, hnul⟩, rfl⟩ := hc
  refine tokensFrom_trivia (List.cons_ne_nil _ _) ?_
  have hinside : ∀ b ∈ Ascii.slash :: Ascii.slash :: words,
      (b != Ascii.newline && b != Ascii.nul) = true := by
    refine List.forall_mem_cons.mpr ⟨rfl, List.forall_mem_cons.mpr ⟨rfl, fun b hb => ?_⟩⟩
    rw [Bool.and_eq_true, bne_iff_ne, bne_iff_ne]
    exact ⟨fun h => hnewline (h ▸ hb), fun h => hnul (h ▸ hb)⟩
  have hstop : rest.takeWhile (fun b => b != Ascii.newline && b != Ascii.nul) = [] := by
    cases rest with
    | nil => rfl
    | cons b rest =>
      rcases hrest b rfl with rfl | rfl
      · rfl
      · rfl
  rw [List.cons_append, triviaWidth, if_neg (by decide), if_pos ⟨rfl, rfl⟩, ← List.cons_append,
    lineCommentWidth, List.takeWhile_append_of_pos hinside, hstop, List.append_nil]

theorem triviaWidth_block (rest : Bytes) :
    triviaWidth (Ascii.slash :: Ascii.star :: rest) =
      blockCommentWidth 0 (Ascii.slash :: Ascii.star :: rest) := by
  have hline : ¬ (Ascii.slash = Ascii.slash ∧ Ascii.star = Ascii.slash) := by decide
  rw [triviaWidth, if_neg (by decide), List.headD_cons, if_neg hline, if_pos ⟨rfl, rfl⟩]

/-- A line comment goes on to the end of its line. -/
theorem lineCommentWidth_spec (text : Bytes) :
    OneLine (text.take (lineCommentWidth text)) ∧
      (AtEnd (text.drop (lineCommentWidth text)) ∨
        ∃ more, text.drop (lineCommentWidth text) = Ascii.newline :: more) := by
  rw [lineCommentWidth, take_length_takeWhile, drop_length_takeWhile]
  refine ⟨⟨fun h => ?_, fun h => ?_⟩, ?_⟩
  · exact absurd (List.mem_takeWhile_imp h) (by decide)
  · exact absurd (List.mem_takeWhile_imp h) (by decide)
  · have hstop := List.head?_dropWhile_not (fun b => b != Ascii.newline && b != Ascii.nul) text
    cases hrest : text.dropWhile fun b => b != Ascii.newline && b != Ascii.nul with
    | nil => exact .inl (by simp [AtEnd])
    | cons b more =>
      rw [hrest] at hstop
      by_cases hb : b = Ascii.newline
      · exact .inr ⟨more, by rw [hb]⟩
      · refine .inl fun c hc => ?_
        cases hc
        simpa [hb] using hstop

theorem interpreterLineWidth_le (source : Bytes) :
    interpreterLineWidth source ≤ source.length := by
  unfold interpreterLineWidth
  split
  · exact length_takeWhile_le _ source
  · exact Nat.zero_le _

/-- What comes next: a token or the end, a piece of layout, or an unfinished comment. -/
theorem trivia_cases (text : Bytes) :
    triviaWidth text = 0 ∨
      (∃ s rest, text = s ++ rest ∧ s ≠ [] ∧ Spacer s ∧ Skipped s rest) ∨
      ∃ comment rest, text = comment ++ rest ∧ AtEnd rest ∧ Unfinished comment ∧
        Skipped comment rest := by
  rcases text with _ | ⟨b, text⟩
  · exact .inl rfl
  by_cases hb : Ascii.isLayout b = true
  · exact .inr (.inl ⟨[b], text, rfl, by simp, .blank hb, skipped_blank hb text⟩)
  by_cases hline : b = Ascii.slash ∧ text.headD 0 = Ascii.slash
  · obtain ⟨rfl, hnext⟩ := hline
    obtain ⟨inner, rfl⟩ := eq_cons_of_headD hnext (by decide)
    obtain ⟨hwords, hrest⟩ := lineCommentWidth_spec inner
    have hsplit := List.take_append_drop (lineCommentWidth inner) inner
    generalize inner.take (lineCommentWidth inner) = words at hwords hsplit
    generalize inner.drop (lineCommentWidth inner) = rest at hrest hsplit
    subst hsplit
    have hcomment : LineComment (Ascii.slash :: Ascii.slash :: words) := ⟨words, hwords, rfl⟩
    rcases hrest with hend | ⟨more, rfl⟩
    · exact .inr (.inr ⟨_, rest, rfl, hend, .line hcomment,
        skipped_lineComment hcomment fun b hb => .inr (hend b hb)⟩)
    · refine .inr (.inl ⟨_, more, ?_, by simp, .line hcomment, ?_⟩)
      · simp
      · exact (skipped_lineComment hcomment fun b hb => .inl (by simpa using hb.symm)).append
          (skipped_blank (by decide) more)
  by_cases hblock : b = Ascii.slash ∧ text.headD 0 = Ascii.star
  · obtain ⟨rfl, hnext⟩ := hblock
    obtain ⟨inner, rfl⟩ := eq_cons_of_headD hnext (by decide)
    have hlength := List.length_take_of_le
      (blockCommentWidth_le 0 (Ascii.slash :: Ascii.star :: inner))
    have hsplit := List.take_append_drop (blockCommentWidth 0 (Ascii.slash :: Ascii.star :: inner))
      (Ascii.slash :: Ascii.star :: inner)
    have hne : (Ascii.slash :: Ascii.star :: inner).take
        (blockCommentWidth 0 (Ascii.slash :: Ascii.star :: inner)) ≠ [] := by
      rw [blockCommentWidth_open, Nat.add_comm]
      exact List.cons_ne_nil _ _
    have hskip := tokensFrom_trivia hne (by rw [hsplit, hlength, triviaWidth_block])
    rcases blockComment_or_open inner with hc | ⟨hend, hc⟩
    · exact .inr (.inl ⟨_, _, hsplit.symm, hne, .block hc, hskip⟩)
    · exact .inr (.inr ⟨_, _, hsplit.symm, hend, .block hc, hskip⟩)
  · refine .inl ?_
    rw [triviaWidth, if_neg hb, if_neg hline, if_neg hblock]

/-- A text with its gap split off. -/
structure Gap (text gap rest : Bytes) : Prop where
  split : text = gap ++ rest
  stop : triviaWidth rest = 0
  last : LastLayout gap
  layout : Layout gap ∨ AtEnd rest
  skipped : Skipped gap rest

theorem triviaWidth_of_atEnd (h : AtEnd rest) : triviaWidth rest = 0 := by
  cases rest with
  | nil => rfl
  | cons b rest =>
    obtain rfl := h b rfl
    rfl

theorem Gap.cons {s : Bytes} (hs : Spacer s) (hskip : Skipped s text) (h : Gap text gap rest) :
    Gap (s ++ text) (s ++ gap) rest where
  split := by rw [h.split, List.append_assoc]
  stop := h.stop
  last := h.last.cons hs
  layout := h.layout.imp_left (Layout.cons hs)
  skipped := by
    rw [h.split] at hskip
    exact hskip.append h.skipped

theorem exists_gap (text : Bytes) : ∃ gap rest, Gap text gap rest := by
  induction hn : text.length using Nat.strongRecOn generalizing text with
  | _ n ih =>
    subst hn
    rcases trivia_cases text with hstop | ⟨s, more, rfl, hne, hs, hskip⟩ |
      ⟨comment, rest, rfl, hend, hcomment, hskip⟩
    · exact ⟨[], text, rfl, hstop, .inl layout_nil, .inl layout_nil, fun _ => rfl⟩
    · have hlength : more.length < (s ++ more).length := by
        rw [List.length_append]
        have := List.length_pos_iff.mpr hne
        omega
      obtain ⟨gap, rest, hgap⟩ := ih _ hlength more rfl
      exact ⟨s ++ gap, rest, hgap.cons hs hskip⟩
    · exact ⟨comment, rest, rfl, triviaWidth_of_atEnd hend,
        .inr ⟨[], comment, layout_nil, hcomment, rfl⟩, .inr hend, hskip⟩

/-! ## The next token -/

variable {tokens : List Token}

theorem tokensFrom_atEnd (h : AtEnd rest) (pos : Pos) :
    tokensFrom 0 rest pos = .ok [endToken pos] := by
  cases rest with
  | nil => rfl
  | cons b rest =>
    obtain rfl := h b rfl
    rfl

/-- Where neither layout nor the end comes next, a token does. -/
theorem tokensFrom_scan (hstop : triviaWidth rest = 0) (hend : ¬ AtEnd rest) (pos : Pos) :
    tokensFrom 0 rest pos =
      match scan rest with
      | .error fault => .error fault
      | .ok l =>
        match tokensFrom l.width rest pos with
        | .error fault => .error fault
        | .ok tokens => .ok (l.toToken pos :: tokens) := by
  cases rest with
  | nil => exact absurd (by simp [AtEnd]) hend
  | cons b rest =>
    have hb : b ≠ Ascii.nul := by
      rintro rfl
      exact hend (by simp [AtEnd])
    rw [tokensFrom, hstop, if_neg (Nat.lt_irrefl 0), if_neg hb]
    cases hl : scan (b :: rest) with
    | error fault => rfl
    | ok l =>
      obtain ⟨w, hw⟩ := Nat.exists_eq_succ_of_ne_zero (scan_width_pos hl).ne'
      simp only [hw, Nat.succ_sub_one]
      rfl

/-- Behind a gap stands the end of the source or a token. -/
theorem tokensFrom_cases (hstop : triviaWidth rest = 0) (h : tokensFrom 0 rest pos = .ok tokens) :
    (AtEnd rest ∧ tokens = [endToken pos]) ∨
      ¬ AtEnd rest ∧ ∃ l more, scan rest = .ok l ∧ tokens = l.toToken pos :: more ∧
        tokensFrom l.width rest pos = .ok more := by
  by_cases hend : AtEnd rest
  · rw [tokensFrom_atEnd hend] at h
    cases h
    exact .inl ⟨hend, rfl⟩
  · rw [tokensFrom_scan hstop hend] at h
    split at h
    · cases h
    · rename_i l hl
      split at h
      · cases h
      · rename_i more hmore
        cases h
        exact .inr ⟨hend, l, more, hl, rfl, hmore⟩

end RustLua.Token
