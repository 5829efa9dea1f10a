import RustLua.Build.Emit
import RustLua.Proofs.Disk.Tree

/-! # Writing outputs

Outputs are written one after the other, up to the first that cannot be written. Each
replaces the text at the place its path leads to, and nothing else. -/
namespace RustLua.Build

open RustLua.Disk (Tree Place)
open RustLua.Disk.Tree (disk run_bind)

variable {t t' : Tree} {path text : Bytes} {outputs : List (Bytes × Bytes)}
  {r : Except EmitError Unit}

/-- An error in making directories or in writing. -/
def EmitError.ofWriting : EmitError → Bool
  | .directory _ | .write _ => true
  | _ => false

/-- The texts of a tree, replaced one after the other at the places of outputs. -/
def updated (t : Tree) (outputs : List (Bytes × Bytes)) : Place → Option Bytes :=
  outputs.foldl (fun texts o => Function.update texts (t.placeOf o.1) (some o.2)) t.textAt?

theorem textAt?_congr (h : t.SameFiles t') : t'.textAt? = t.textAt? := by
  funext place
  rw [Tree.textAt?, h.1, Tree.textAt?]

/-- The directories are made, and then the file is written or something failed. -/
theorem writeOutput_cases (h : (writeOutput disk path text).run t = (r, t')) :
    ∃ t₁, t.SameFiles t₁ ∧ ((r = .ok () ∧ t₁.write path text = .ok t') ∨
      ∃ e, r = .error e ∧ e.ofWriting = true ∧ t' = t₁) := by
  have hwritten {t₁ : Tree} (hfiles : t.SameFiles t₁)
      (h : (disk.write path text >>= fun w => pure (w.mapError fun fault =>
        EmitError.write ⟨.open, path, fault⟩)).run t₁ = (r, t')) :
      ∃ t₁, t.SameFiles t₁ ∧ ((r = .ok () ∧ t₁.write path text = .ok t') ∨
        ∃ e, r = .error e ∧ e.ofWriting = true ∧ t' = t₁) := by
    refine ⟨t₁, hfiles, ?_⟩
    rw [run_bind] at h
    generalize hwrite : (disk.write path text).run t₁ = written at h
    obtain ⟨written, t₂⟩ := written
    obtain ⟨rfl, hchange⟩ | ⟨fault, rfl, rfl⟩ := Tree.run_update hwrite
    · cases h
      exact .inl ⟨rfl, hchange⟩
    · cases h
      exact .inr ⟨_, rfl, rfl, rfl⟩
  simp only [writeOutput] at h
  split at h
  · exact hwritten ⟨rfl, rfl⟩ h
  · rw [run_bind] at h
    generalize hmake : (disk.makeDirectories (Path.directory path)).run t = made at h
    obtain ⟨made, t₁⟩ := made
    have hfiles := Tree.sameFiles_makeEach hmake
    cases made with
    | ok => exact hwritten hfiles h
    | error e =>
      cases h
      exact ⟨t₁, hfiles, .inr ⟨_, rfl, rfl, rfl⟩⟩

theorem textAt?_writeOutput (h : (writeOutput disk path text).run t = (r, t')) :
    t'.home = t.home ∧
      ((r = .ok () ∧ t'.textAt? = Function.update t.textAt? (t.placeOf path) (some text)) ∨
        ∃ e, r = .error e ∧ e.ofWriting = true ∧ t'.textAt? = t.textAt?) := by
  obtain ⟨t₁, hfiles, ⟨hr, hwrite⟩ | ⟨e, hr, he, rfl⟩⟩ := writeOutput_cases h
  · refine ⟨(Tree.home_of_write hwrite).trans hfiles.2, .inl ⟨hr, ?_⟩⟩
    rw [Tree.textAt?_of_write hwrite, textAt?_congr hfiles, Tree.placeOf_congr hfiles.2]
  · exact ⟨hfiles.2, .inr ⟨e, hr, he, textAt?_congr hfiles⟩⟩

theorem writeOutputs_cons {output : Bytes × Bytes}
    (h : (writeOutputs disk (output :: outputs)).run t = (r, t')) :
    ∃ r₁ t₁, (writeOutput disk output.1 output.2).run t = (r₁, t₁) ∧
      ((r₁ = .ok () ∧ (writeOutputs disk outputs).run t₁ = (r, t')) ∨
        ∃ e, r₁ = .error e ∧ r = .error e ∧ t' = t₁) := by
  obtain ⟨path, text⟩ := output
  simp only [writeOutputs, run_bind] at h
  generalize hfirst : (writeOutput disk path text).run t = first at h
  obtain ⟨r₁, t₁⟩ := first
  refine ⟨r₁, t₁, rfl, ?_⟩
  cases r₁ with
  | ok => exact .inl ⟨rfl, h⟩
  | error e =>
    cases h
    exact .inr ⟨e, rfl, rfl, rfl⟩

/-- All outputs are written, or those before the first that cannot be. -/
theorem textAt?_writeOutputs (h : (writeOutputs disk outputs).run t = (r, t')) :
    (r = .ok () ∧ t'.textAt? = updated t outputs) ∨
      ∃ e k, r = .error e ∧ e.ofWriting = true ∧ k < outputs.length ∧
        t'.textAt? = updated t (outputs.take k) := by
  induction outputs generalizing t with
  | nil =>
    cases h
    exact .inl ⟨rfl, rfl⟩
  | cons output outputs ih =>
    obtain ⟨r₁, t₁, hfirst, ⟨rfl, hrest⟩ | ⟨e, rfl, rfl, rfl⟩⟩ := writeOutputs_cons h
    · obtain ⟨hhome, ⟨-, htext⟩ | ⟨e, he, -⟩⟩ := textAt?_writeOutput hfirst
      · have hupdated (outputs : List (Bytes × Bytes)) :
            updated t₁ outputs = updated t (output :: outputs) := by
          rw [updated, htext, Tree.placeOf_congr hhome]
          rfl
        obtain ⟨hr, hrest⟩ | ⟨e, k, hr, he, hk, hrest⟩ := ih hrest
        · exact .inl ⟨hr, hrest.trans (hupdated _)⟩
        · exact .inr ⟨e, k + 1, hr, he, Nat.succ_lt_succ hk, hrest.trans (hupdated _)⟩
      · cases he
    · obtain ⟨-, ⟨hr, -⟩ | ⟨e', hr, he, htext⟩⟩ := textAt?_writeOutput hfirst
      · cases hr
      · cases hr
        exact .inr ⟨e, 0, rfl, he, Nat.succ_pos _, htext⟩

/-- A text stays if no output can be written to its place. -/
theorem textAt?_writeOutputs_of_ne {place : Place}
    (hne : ∀ o ∈ outputs, ∀ t₁ t₂ : Tree, t₁.write o.1 o.2 = .ok t₂ → t.placeOf o.1 ≠ place)
    (h : (writeOutputs disk outputs).run t = (r, t')) : t'.textAt? place = t.textAt? place := by
  induction outputs generalizing t with
  | nil =>
    cases h
    rfl
  | cons output outputs ih =>
    obtain ⟨r₁, t₁, hfirst, hrest⟩ := writeOutputs_cons h
    have hkept : t₁.textAt? place = t.textAt? place := by
      obtain ⟨t₂, hfiles, ⟨-, hwrite⟩ | ⟨e, -, -, rfl⟩⟩ := writeOutput_cases hfirst
      · have hother := hne output List.mem_cons_self t₂ t₁ hwrite
        rw [← Tree.placeOf_congr hfiles.2] at hother
        rw [Tree.textAt?_of_write hwrite, Function.update_of_ne hother.symm, textAt?_congr hfiles]
      · rw [textAt?_congr hfiles]
    obtain ⟨-, hrest⟩ | ⟨e, -, -, rfl⟩ := hrest
    · rw [← Tree.placeOf_congr (textAt?_writeOutput hfirst).1] at hne
      exact (ih (fun o ho => hne o (List.mem_cons_of_mem _ ho)) hrest).trans hkept
    · exact hkept

end RustLua.Build
