import Mathlib.Data.List.Nodup
import Mathlib.Data.List.Perm.Subperm
import InlineTemplates.Program.Scope

/-!
# Fresh names

A name that is handed out is none of those that are taken: there are more candidates than taken
names, and no two candidates are the same.
-/

namespace InlineTemplates

theorem CodePoint.isAsciiDigit_iff {c : CodePoint} :
    c.isAsciiDigit ↔ 48 ≤ c.val ∧ c.val ≤ 57 := by
  simp [isAsciiDigit]

theorem Text.ofNat_isAsciiDigit (n : Nat) : ∀ c ∈ Text.ofNat n, c.isAsciiDigit := by
  intro c hc
  obtain ⟨ch, hch, rfl⟩ := List.mem_map.mp hc
  have hdigit := Nat.isDigit_of_mem_toDigits (by decide) (by decide) hch
  rw [CodePoint.isAsciiDigit_iff]
  simpa [Char.isDigit, UInt32.le_iff_toNat_le, CodePoint.val] using hdigit

theorem Text.ofNat_injective {m n : Nat} (h : Text.ofNat m = Text.ofNat n) : m = n := by
  have hdigits : Nat.toDigits 10 m = Nat.toDigits 10 n :=
    List.map_injective_iff.mpr (fun _ _ hc => CodePoint.scalar.inj hc) h
  rw [← Nat.ofDigitChars_ten_toDigits (n := m), hdigits, Nat.ofDigitChars_ten_toDigits]

theorem Text.ofNat_ne_nil (n : Nat) : Text.ofNat n ≠ [] := by
  rw [Text.ofNat, ne_eq, List.map_eq_nil_iff]
  exact Nat.toDigits_ne_nil

namespace Scope

/-! ## Candidates -/

theorem candidate_injective (base : Text) : Function.Injective (candidate base) := by
  intro i j h
  have hnumber := List.append_cancel_left h
  unfold Text.when at hnumber
  rcases i with _ | i <;> rcases j with _ | j
  · rfl
  · exact absurd hnumber.symm (Text.ofNat_ne_nil _)
  · exact absurd hnumber (Text.ofNat_ne_nil _)
  · exact Nat.succ.inj (Text.ofNat_injective hnumber)

theorem exists_free (base : Text) (taken : List Text) :
    ∃ name ∈ (List.range (taken.length + 1)).map (candidate base), name ∉ taken := by
  by_contra hnone
  have hall : (List.range (taken.length + 1)).map (candidate base) ⊆ taken := by
    intro name hname
    by_contra hfree
    exact hnone ⟨name, hname, hfree⟩
  have hnodup : ((List.range (taken.length + 1)).map (candidate base)).Nodup :=
    List.nodup_range.map (candidate_injective base)
  have hlength := (List.subperm_of_subset hnodup hall).length_le
  rw [List.length_map, List.length_range] at hlength
  omega

theorem firstFree_not_mem (base : Text) (taken : List Text) : firstFree base taken ∉ taken := by
  unfold firstFree
  obtain ⟨name, hname, hfree⟩ := exists_free base taken
  cases hfound : ((List.range (taken.length + 1)).map (candidate base)).find?
      (!taken.contains ·) with
  | none =>
    have hused := List.find?_eq_none.mp hfound name hname
    simp [hfree] at hused
  | some first =>
    have hfirst := List.find?_some hfound
    simpa using hfirst

/-! ## Names that are handed out -/

variable (s : Scope) (text : Text)

theorem generate_not_mem_taken : (s.generate text).1 ∉ s.taken := firstFree_not_mem _ _

theorem generate_not_mem_references : (s.generate text).1 ∉ s.references := by
  intro h
  apply generate_not_mem_taken s text
  simp [taken, h]

@[simp] theorem references_generate :
    (s.generate text).2.references = (s.generate text).1 :: s.references := rfl

theorem generateFor_not_mem_references (n : Option Node) (otherwise : Text) :
    (s.generateFor n otherwise).1 ∉ s.references := generate_not_mem_references s _

@[simp] theorem references_generateFor (n : Option Node) (otherwise : Text) :
    (s.generateFor n otherwise).2.references = (s.generateFor n otherwise).1 :: s.references := rfl

@[simp] theorem references_renamed (old new : Text) :
    (s.renamed old new).references = new :: s.references := rfl

end Scope

end InlineTemplates
