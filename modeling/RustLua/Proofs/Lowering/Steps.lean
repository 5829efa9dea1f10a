import RustLua.Lowering.Basic
import RustLua.Proofs.Outcome

/-! # What lowering can give

Most constructs are lowered part by part, and what their nodes satisfy follows from what the
nodes of the parts do. There is a rule here for each of the others, whose lowering looks at the
place or at the form of a part first, and one for the nodes of a sequence. -/
namespace RustLua.Lowering

open RustLua.Tree

variable {place : Place} {pos : Pos} {P : Ir.Item → Prop}

theorem ensures_statementOnly {what : String} {x : Except Rejection Ir.Item}
    (h : place.wantsValue = false → Ensures x P) : Ensures (place.statementOnly what pos x) P := by
  refine .ite (fun _ => .error) fun hw => h ?_
  simpa using hw

/-- The nodes of literals. -/
inductive IsLiteralNode : Ir.Item → Prop
  | bool {b : Bool} : IsLiteralNode (.bool b)
  | string {text : Bytes} : IsLiteralNode (.string text)
  | integer {n : Int64} : IsLiteralNode (.integer n)
  | decimal {d : Double} : IsLiteralNode (.decimal d)

theorem ensures_literal (l : Literal) (negative : Bool) :
    Ensures (literal l negative) IsLiteralNode := by
  unfold literal
  split
  · exact .pure .bool
  · exact .pure .string
  · split
    · exact .pure .integer
    · exact .error
  · split
    · exact .pure .decimal
    · exact .error
  · exact .error
  · exact .error

theorem ensures_lit {l : Literal} (h : ∀ i, IsLiteralNode i → P (place.finish i)) :
    Ensures (lowerExpr place (.lit l)) P := by
  rw [lowerExpr]
  exact (ensures_literal l false).map h

/-- A sign stands in front of literals only. -/
theorem ensures_unary {op : UnaryOp} {operand : Expr}
    (h : ∀ l, operand = .lit l → ∀ i, IsLiteralNode i → P (place.finish i)) :
    Ensures (lowerExpr place (.unary op operand pos)) P := by
  rw [lowerExpr.eq_def]
  dsimp only
  split
  · rename_i l
    exact .ite (fun _ => (ensures_literal l true).map (h l rfl)) fun _ => .error
  · exact .error

/-- The only method is the step of a range that is iterated over. -/
theorem ensures_methodCall {receiver step : Expr} {method : Bytes}
    (h : place = .iterated → isRange receiver = true → Ensures (do
      let head ← lowerExpr .iterated receiver
      let step ← lowerExpr .value step
      return withStep step head) P) :
    Ensures (lowerExpr place (.methodCall receiver method [step] pos)) P := by
  rw [lowerExpr]
  exact .ite (fun hc => h hc.1 hc.2.2) fun _ => .error

/-- Macros print or format values. -/
theorem ensures_macroCall {path : List Bytes} {args : List Expr} {isOpaque : Bool}
    (hprint : isOpaque = false →
      Ensures (lowerValues args) fun vs => P (place.finish (.call (.ident "print") vs)))
    (hformat : isOpaque = false → ∀ l rest, args = .lit l :: rest →
      Ensures (lowerValues rest) fun vs => P (place.finish (formatItem l.value vs))) :
    Ensures (lowerExpr place (.macroCall path args isOpaque pos)) P := by
  rw [lowerExpr.eq_def]
  dsimp only
  refine .ite (fun _ => ?_) fun _ => .ite (fun _ => ?_) fun _ => .error
  · refine .ite (fun _ => .error) fun ho => ?_
    exact (hprint (by simpa using ho)).bind fun _ _ h => .pure h
  · split
    · exact .error
    · refine .ite (fun _ => .error) fun ho => ?_
      split
      · exact (hformat (by simpa using ho) _ _ rfl).bind fun _ _ h => .pure h
      · exact .error

theorem ensures_macroCall_nil {path : List Bytes} {isOpaque : Bool}
    (h : isOpaque = false → P (place.finish (.call (.ident "print") []))) :
    Ensures (lowerExpr place (.macroCall path [] isOpaque pos)) P :=
  ensures_macroCall (fun ho => .pure (h ho)) fun _ _ _ hargs => by cases hargs

/-- The nodes of a sequence are those that it holds, and one of all extern names. -/
theorem forall_mem_collect {list : List Contribution}
    (hnode : ∀ i, .node i ∈ list → P i)
    (hexterns : ∀ names, names ≠ [] → (∀ n ∈ names, ∃ c ∈ list, n ∈ c.names) → P (.externs names)) :
    ∀ i ∈ collect list, P i := by
  have hplaced (names : List Bytes) (rest : List Contribution) (hr : ∀ c ∈ rest, c ∈ list)
      (hn : rest.flatMap Contribution.names ≠ [] → P (.externs names)) :
      ∀ i ∈ placeExterns names rest, P i := by
    induction rest with
    | nil => simp [placeExterns]
    | cons c rest ih =>
      obtain ⟨hc, hrest⟩ := List.forall_mem_cons.mp hr
      cases c with
      | node item => exact List.forall_mem_cons.mpr ⟨hnode item hc, ih hrest hn⟩
      | externs first =>
        cases first with
        | nil => exact ih hrest hn
        | cons n more =>
          refine List.forall_mem_cons.mpr ⟨hn (by simp [Contribution.names]), fun i hi => ?_⟩
          obtain ⟨d, hd, hdi⟩ := List.mem_filterMap.mp hi
          cases d with
          | node item => cases hdi; exact hnode _ (hrest _ hd)
          | externs names => cases hdi
  exact hplaced _ list (fun _ => id) fun hne => hexterns _ hne fun _ => List.mem_flatMap.mp

end RustLua.Lowering
