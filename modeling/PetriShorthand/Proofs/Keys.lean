import PetriShorthand.Proofs.Plans
import PetriShorthand.Proofs.Spelling

namespace PetriShorthand

open Token

namespace TransitionRef

/-- The label has no underscore, so that it ends where the separator begins. -/
def HasPlainLabel (t : TransitionRef) : Prop := '_' ∉ t.label.toList

theorem toList_key_of_none {t : TransitionRef} (h : t.suffix = none) :
    t.key.toList = t.label.toList := by
  rw [key, h]

theorem toList_key_of_some {t : TransitionRef} {suffix : String} (h : t.suffix = some suffix) :
    t.key.toList = t.label.toList ++ '_' :: '_' :: suffix.toList := by
  rw [key, h]
  simp [separatorText]

theorem HasPlainLabel.takeWhile_key {t : TransitionRef} (h : t.HasPlainLabel) :
    t.key.toList.takeWhile (· ≠ '_') = t.label.toList := by
  have hall : ∀ c ∈ t.label.toList, decide (c ≠ '_') = true := by
    intro c hc
    have hne : c ≠ '_' := fun he => h (he ▸ hc)
    exact decide_eq_true hne
  cases hs : t.suffix with
  | none =>
    rw [toList_key_of_none hs]
    exact List.takeWhile_eq_self_iff.mpr hall
  | some suffix =>
    rw [toList_key_of_some hs, List.takeWhile_append_of_pos hall]
    simp

theorem HasPlainLabel.key_eq_iff {t u : TransitionRef} (ht : t.HasPlainLabel)
    (hu : u.HasPlainLabel) : t.key = u.key ↔ (t.label, t.suffix) = (u.label, u.suffix) := by
  constructor
  · intro h
    have hlabel : t.label = u.label := by
      rw [← String.toList_inj, ← ht.takeWhile_key, ← hu.takeWhile_key, h]
    have hkey : t.key.toList = u.key.toList := by rw [h]
    have hsuffix : t.suffix = u.suffix := by
      cases hs : t.suffix with
      | none =>
        cases hs' : u.suffix with
        | none => rfl
        | some suffix' =>
          rw [toList_key_of_none hs, toList_key_of_some hs', hlabel] at hkey
          simp at hkey
      | some suffix =>
        cases hs' : u.suffix with
        | none =>
          rw [toList_key_of_some hs, toList_key_of_none hs', hlabel] at hkey
          simp at hkey
        | some suffix' =>
          rw [toList_key_of_some hs, toList_key_of_some hs', hlabel] at hkey
          have hlist := List.append_cancel_left hkey
          simp only [List.cons.injEq, true_and] at hlist
          rw [String.toList_inj.mp hlist]
    rw [hlabel, hsuffix]
  · intro h
    obtain ⟨hlabel, hsuffix⟩ := Prod.mk.inj h
    rw [key, key, hlabel, hsuffix]

end TransitionRef

theorem TransitionRef.IsNamed.hasPlainLabel {t : TransitionRef} (h : t.IsNamed) :
    t.HasPlainLabel := by
  rcases h.name with ⟨-, hlabel⟩ | ⟨-, hlabel, -⟩
  · rw [HasPlainLabel, hlabel]
    decide
  · intro hmem
    exact absurd (hlabel.isAlphanum '_' hmem) (by decide)

theorem Chain.hasPlainLabel_of_ofText {text : String} {c : Chain} (h : ofText text = .ok c) :
    ∀ t ∈ c.transitions, t.HasPlainLabel := by
  intro t ht
  obtain ⟨s, hs, rfl⟩ := List.mem_map.mp ht
  exact ((isNamed_of_ofText h).1.transition s hs).hasPlainLabel

end PetriShorthand
