import Mathlib.Data.List.Chain
import InlineTemplates.Proofs.OperatorPhrases

/-!
# Brackets in expressions

The brackets of an expression close one another, whatever is open around it, and no two names stand
side by side in it. So an expression leaves the brackets around it as they are.
-/

namespace InlineTemplates

namespace Token.Kind

def opens (k : Kind) : Bool := k = leftParen || k = leftBracket

def closes (k : Kind) : Bool := k = rightParen || k = rightBracket

theorem opens_iff {k : Kind} : k.opens ↔ k = leftParen ∨ k = leftBracket := by simp [opens]

theorem closes_iff {k : Kind} : k.closes ↔ k = rightParen ∨ k = rightBracket := by simp [closes]

/-- Whether this kind stands between names: it is none, and no bracket either. -/
def isSign (k : Kind) : Bool := k != name && !k.opens && !k.closes

/-- How many brackets are open behind a token of kind `k` where `n` are open in front of it, if it
closes none further out. -/
def bracketStep (n : Nat) (k : Kind) : Option Nat :=
  if k.opens then some (n + 1)
  else if k.closes then if n = 0 then none else some (n - 1)
  else some n

/-- Kinds of tokens that close the brackets that they open, and no others, and hold no two names
side by side. -/
structure Tidy (ks : List Kind) : Prop where
  balanced (n : Nat) : ks.foldlM bracketStep n = some n
  apart : ks.IsChain fun j k => j = name → k ≠ name

namespace Tidy

variable {j k : Kind} {js ks : List Kind}

theorem nil : Tidy [] := ⟨fun _ => rfl, .nil⟩

theorem single (ho : k.opens = false) (hc : k.closes = false) : Tidy [k] :=
  ⟨fun n => by simp [bracketStep, ho, hc], .singleton k⟩

theorem append (h : Tidy js) (h' : Tidy ks)
    (hapart : ∀ j ∈ js.getLast?, ∀ k ∈ ks.head?, j = name → k ≠ name) : Tidy (js ++ ks) := by
  refine ⟨fun n => ?_, List.isChain_append.2 ⟨h.apart, h'.apart, hapart⟩⟩
  rw [List.foldlM_append, h.balanced]
  exact h'.balanced n

theorem behindSign (hk : k.isSign) (h : Tidy ks) : Tidy (k :: ks) := by
  simp only [isSign, Bool.and_eq_true, bne_iff_ne, Bool.not_eq_true'] at hk
  obtain ⟨⟨hname, ho⟩, hc⟩ := hk
  exact (single ho hc).append h (by simp [hname])

theorem between (h : Tidy js) (hk : k.isSign) (h' : Tidy ks) : Tidy (js ++ k :: ks) := by
  refine h.append (h'.behindSign hk) fun _ _ i hi _ => ?_
  obtain rfl := Option.some.inj hi
  simp only [isSign, Bool.and_eq_true, bne_iff_ne] at hk
  exact hk.1.1

theorem enclosed (ho : j.opens) (h : Tidy ks) (hc : k.closes) : Tidy (j :: ks ++ [k]) := by
  have hj : j ≠ name := by
    rintro rfl
    cases ho
  obtain ⟨hk, hopens⟩ : k ≠ name ∧ k.opens = false := by
    rcases closes_iff.1 hc with rfl | rfl <;> decide
  refine ⟨fun n => ?_, List.isChain_append.2 ⟨?_, .singleton k, ?_⟩⟩
  · have hopen : bracketStep n j = some (n + 1) := if_pos ho
    have hclose : bracketStep (n + 1) k = some n := by simp [bracketStep, hopens, hc]
    simp [hopen, h.balanced, hclose]
  · exact List.isChain_cons.2 ⟨fun _ _ hname => absurd hname hj, h.apart⟩
  · rintro _ - _ hi -
    obtain rfl := Option.some.inj hi
    exact hk

theorem behindEnclosed (h : Tidy js) (ho : j.opens) (h' : Tidy ks) (hc : k.closes) :
    Tidy (js ++ (j :: ks ++ [k])) := by
  refine h.append (h'.enclosed ho hc) fun _ _ i hi _ => ?_
  obtain rfl := Option.some.inj hi
  rintro rfl
  cases ho

end Tidy

end Token.Kind

namespace Grammar

open Token (Kind)
open Token.Kind (Tidy)

theorem isSign_of_operator {k : Kind} (h : (UnaryOp.ofKind? k).isSome ∨
    (UpdateOp.ofKind? k).isSome ∨ (BinaryOp.ofKind? k).isSome ∨ (AssignOp.ofKind? k).isSome) :
    k.isSign := by
  revert h
  cases k <;> decide

theorem Derives.tidy {phrase : Phrase} {ts : List Token} (h : Derives phrase ts) :
    Tidy (ts.map Token.kind) := by
  induction h with
  | name ht | string ht | true ht | false ht | null ht =>
    exact .single (by rw [ht]; rfl) (by rw [ht]; rfl)
  | array ho _ hc ih | parens ho _ hc ih =>
    simpa using ih.enclosed (by rw [ho]; rfl) (by rw [hc]; rfl)
  | base _ ih | plain _ ih | looser _ _ ih | operators _ ih | value _ ih => exact ih
  | @attr _ _ _ p _ optional _ hd hp ih =>
    have hsign : Kind.isSign (if optional then .optionalChain else .dot) := by
      cases optional <;> rfl
    rw [← hd] at hsign
    have hname : Tidy [p.kind] := by
      rcases hp with hp | hp <;> rw [hp] <;> exact .single rfl rfl
    simpa using ih.between hsign hname
  | index _ ho _ hc ih ihi | call _ ho _ hc ih ihi =>
    simpa using ih.behindEnclosed (by rw [ho]; rfl) ihi (by rw [hc]; rfl)
  | @optionalIndex _ _ _ _ o c _ _ _ hd ho _ hc ih ihi
  | @optionalCall _ _ _ _ o c _ _ _ hd ho _ hc ih ihi =>
    have hopen : o.kind.opens := by rw [ho]; rfl
    have hclose : c.kind.closes := by rw [hc]; rfl
    simpa using ih.between (by rw [hd]; rfl) (ihi.enclosed hopen hclose)
  | updated _ ho ih =>
    simpa using ih.between (isSign_of_operator (.inr (.inl (by simp [ho])))) .nil
  | update ho _ ih =>
    exact ih.behindSign (isSign_of_operator (.inr (.inl (by simp [ho]))))
  | unary ho _ ih => exact ih.behindSign (isSign_of_operator (.inl (by simp [ho])))
  | binary _ ho _ ih ihr =>
    simpa using ih.between (isSign_of_operator (.inr (.inr (.inl (by simp [ho]))))) ihr
  | assign _ ho _ ih ihvalue =>
    simpa using ih.between (isSign_of_operator (.inr (.inr (.inr (by simp [ho]))))) ihvalue
  | @ternary _ _ _ _ _ _ c _ _ _ _ hq _ hc _ ih ihthen ihelse =>
    have hcolon : c.kind.isSign := by rw [hc]; rfl
    simpa using ih.between (by rw [hq]; rfl) (ihthen.between hcolon ihelse)
  | spread ho _ ih => exact ih.behindSign (by rw [ho]; rfl)
  | none | last => exact .nil
  | @items _ _ _ us _ hmore ih ihmore =>
    rw [List.map_append]
    refine ih.append ihmore fun _ _ k hk _ => ?_
    rw [List.head?_map, Option.mem_def, Option.map_eq_some_iff] at hk
    obtain ⟨t, ht, rfl⟩ := hk
    rw [show t.kind = .comma from hmore.startsWith t ht]
    decide
  | @more _ _ _ _ us hc _ hmore ih ihmore =>
    rw [List.map_append, List.map_cons]
    refine (ih.behindSign (by rw [hc]; rfl)).append ihmore fun _ _ k hk _ => ?_
    rw [List.head?_map, Option.mem_def, Option.map_eq_some_iff] at hk
    obtain ⟨t, ht, rfl⟩ := hk
    rw [show t.kind = .comma from hmore.startsWith t ht]
    decide

end Grammar

end InlineTemplates
