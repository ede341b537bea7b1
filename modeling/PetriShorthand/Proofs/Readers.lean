import PetriShorthand.Chain.Reading
import PetriShorthand.Proofs.Stages
import PetriShorthand.Proofs.Utterance

namespace PetriShorthand

open Grammar Token

namespace Reading

variable {α β : Type} {ts rest : List Token}

theorem bind_of_ok {r : Reading α} {f : α → Reading β} {a : α} (h : r ts = .ok (a, rest)) :
    (r >>= f) ts = f a rest := by
  show (r ts >>= fun p => f p.1 p.2) = _
  rw [h]
  rfl

theorem bind_of_error {r : Reading α} {f : α → Reading β} {m : Mismatch} (h : r ts = .error m) :
    (r >>= f) ts = .error m := by
  show (r ts >>= fun p => f p.1 p.2) = _
  rw [h]
  rfl

theorem get_bind (f : List Token → Reading β) (ts : List Token) : (get >>= f) ts = f ts ts := rfl

theorem expect_cons {kind : Kind} {t : Token} (h : t.kind = kind) (ts : List Token) :
    expect kind (t :: ts) = .ok (t, ts) := by
  rw [expect, if_pos h]

theorem expect_of_front {kind : Kind} (h : front ts ≠ kind) :
    expect kind ts = .error ⟨[kind], ts.head?, ts⟩ := by
  cases ts with
  | nil => rfl
  | cons t ts =>
    have ht : t.kind ≠ kind := h
    rw [expect, if_neg ht]
    rfl

theorem exists_cons_of_front {kind : Kind} (h : front ts = kind) (hk : kind ≠ .finish) :
    ∃ t rest, ts = t :: rest ∧ t.kind = kind := by
  cases ts with
  | nil => exact absurd h.symm hk
  | cons t rest => exact ⟨t, rest, rfl, h⟩

/-- The reader goes on from the stage through tokens that may come, as far as there are any, and
stops where none of those follows that could. -/
def Stops (q : Stage) (r : Reading α) (ts : List Token) : Prop :=
  ∃ taken rest m, ts = taken ++ rest ∧ q.run (taken.map (·.kind)) = some m ∧ m ≠ .complete ∧
    m.next (front rest) = none ∧ r ts = .error ⟨m.reported, rest.head?, rest⟩

theorem Stops.here {q : Stage} {r : Reading α} (hq : q ≠ .complete)
    (hnext : q.next (front ts) = none) (h : r ts = .error ⟨q.reported, ts.head?, ts⟩) :
    Stops q r ts :=
  ⟨[], ts, q, rfl, rfl, hq, hnext, h⟩

theorem Stops.congr {q : Stage} {r r' : Reading α} (he : r ts = r' ts) (h : Stops q r' ts) :
    Stops q r ts := by
  obtain ⟨taken, rest, m, hts, hrun, hm, hnext, hr⟩ := h
  exact ⟨taken, rest, m, hts, hrun, hm, hnext, he.trans hr⟩

theorem Stops.bind {q : Stage} {r : Reading α} (h : Stops q r ts) (f : α → Reading β) :
    Stops q (r >>= f) ts := by
  obtain ⟨taken, rest, m, he, hrun, hm, hnext, hr⟩ := h
  exact ⟨taken, rest, m, he, hrun, hm, hnext, bind_of_error hr⟩

theorem Stops.after {q q' : Stage} {r : Reading α} {f : α → Reading β} {taken : List Token} {a : α}
    (hrun : q.run (taken.map (·.kind)) = some q') (hr : r (taken ++ rest) = .ok (a, rest))
    (h : Stops q' (f a) rest) : Stops q (r >>= f) (taken ++ rest) := by
  obtain ⟨taken', rest', m, rfl, hrun', hm, hnext, hf⟩ := h
  refine ⟨taken ++ taken', rest', m, (List.append_assoc ..).symm, ?_, hm, hnext, ?_⟩
  · rw [List.map_append]
    exact Stage.run_append_eq_some.mpr ⟨q', hrun, hrun'⟩
  · exact (bind_of_ok hr).trans hf

theorem Stops.cons {q q' : Stage} {r : Reading α} {f : α → Reading β} {t : Token} {a : α}
    (hnext : q.next t.kind = some q') (hr : r (t :: rest) = .ok (a, rest))
    (h : Stops q' (f a) rest) : Stops q (r >>= f) (t :: rest) := by
  have hrun : q.run ([t].map (·.kind)) = some q' := Stage.run_cons_eq_some.mpr ⟨q', hnext, rfl⟩
  exact Stops.after hrun hr h

theorem expect_cases (q : Stage) {kind : Kind} (hq : q ≠ .complete)
    (hreported : q.reported = [kind]) (ts : List Token) :
    (∃ t rest, ts = t :: rest ∧ t.kind = kind ∧ expect kind ts = .ok (t, rest)) ∨
      Stops q (expect kind) ts := by
  cases ts with
  | nil =>
    refine .inr (.here hq q.next_finish ?_)
    rw [hreported]
    rfl
  | cons t rest =>
    by_cases ht : t.kind = kind
    · exact .inl ⟨t, rest, rfl, ht, expect_cons ht rest⟩
    · have hmem : t.kind ∉ q.reported := by
        rw [hreported]
        simpa using ht
      refine .inr (.here hq (Stage.next_eq_none hmem) ?_)
      rw [hreported]
      exact expect_of_front ht

theorem place_cases (q : Stage) (hq : q ≠ .complete) (hreported : q.reported = [.label])
    (ts : List Token) :
    (∃ t rest, ts = t :: rest ∧ t.kind = .label ∧ place ts = .ok (t.text, rest)) ∨
      Stops q place ts := by
  rcases expect_cases q hq hreported ts with ⟨t, rest, rfl, hk, ht⟩ | hstop
  · exact .inl ⟨t, rest, rfl, hk, bind_of_ok ht⟩
  · exact .inr (hstop.bind _)

theorem name_of_reads {t : Token} {label : String} {silent : Bool} (h : ReadsName t label silent)
    (rest : List Token) : name (t :: rest) = .ok ((label, silent), rest) := by
  have hfront : front (t :: rest) = t.kind := rfl
  rw [name, get_bind, hfront]
  cases h with
  | label hk =>
    rw [hk]
    exact bind_of_ok (expect_cons hk rest)
  | tau hk =>
    rw [hk]
    exact bind_of_ok (expect_cons hk rest)

theorem name_of_front (hlabel : front ts ≠ .label) (htau : front ts ≠ .tau) :
    name ts = .error ⟨[.label, .tau], ts.head?, ts⟩ := by
  rw [name, get_bind]
  cases hfront : front ts with
  | label => exact absurd hfront hlabel
  | tau => exact absurd hfront htau
  | _ => rfl

theorem name_cases (q : Stage) (hq : q = .squareOpen ∨ q = .braceOpen) (ts : List Token) :
    (∃ t rest label silent, ts = t :: rest ∧ ReadsName t label silent) ∨ Stops q name ts := by
  by_cases hname : front ts = .label ∨ front ts = .tau
  · refine .inl ?_
    rcases hname with hfront | hfront
    · obtain ⟨t, rest, rfl, hk⟩ := exists_cons_of_front hfront nofun
      exact ⟨t, rest, _, _, rfl, .label hk⟩
    · obtain ⟨t, rest, rfl, hk⟩ := exists_cons_of_front hfront nofun
      exact ⟨t, rest, _, _, rfl, .tau hk⟩
  · obtain ⟨hlabel, htau⟩ := not_or.mp hname
    have hreported : q.reported = [.label, .tau] := by rcases hq with rfl | rfl <;> rfl
    have hmem : front ts ∉ q.reported := by simp [hreported, hlabel, htau]
    refine .inr (.here (by rcases hq with rfl | rfl <;> nofun) (Stage.next_eq_none hmem) ?_)
    rw [hreported]
    exact name_of_front hlabel htau

theorem suffix_of_reads {follow : List Kind} {taken : List Token} {number : Option String}
    (h : ReadsSuffix taken number) (hfollow : front rest ∈ follow) (hsep : .separator ∉ follow) :
    suffix follow (taken ++ rest) = .ok (number, rest) := by
  rw [suffix, get_bind]
  cases h with
  | absent =>
    have hne : front rest ≠ .separator := fun h => hsep (h ▸ hfollow)
    simp only [List.nil_append, hne, hfollow, ↓reduceIte]
    rfl
  | @given separator number hs hn =>
    have hfront : front ([separator, number] ++ rest) = .separator := hs
    simp only [hfront, ↓reduceIte]
    exact (bind_of_ok (expect_cons hs _)).trans (bind_of_ok (expect_cons hn _))

theorem suffix_cases (q q' : Stage) (follow : List Kind) (hq : q ≠ .complete)
    (hreported : q.reported = .separator :: follow) (hsep : .separator ∉ follow)
    (hnext : q.next .separator = some q') (hq' : q' ≠ .complete)
    (hreported' : q'.reported = [.number]) (ts : List Token) :
    (∃ taken rest number, ts = taken ++ rest ∧ ReadsSuffix taken number ∧
      (number = none → front rest ∈ follow) ∧ suffix follow ts = .ok (number, rest)) ∨
      Stops q (suffix follow) ts := by
  by_cases hfront : front ts = .separator
  · obtain ⟨separator, rest, rfl, hs⟩ := exists_cons_of_front hfront nofun
    have hsuffix : suffix follow (separator :: rest) = (do
        let _ ← expect .separator
        let t ← expect .number
        return some t.text) (separator :: rest) := by
      rw [suffix, get_bind]
      simp only [hfront, ↓reduceIte]
    rw [← hs] at hnext
    rcases expect_cases q' hq' hreported' rest with ⟨number, rest, rfl, hn, ht⟩ | hstop
    · refine .inl ⟨[separator, number], rest, _, rfl, .given hs hn, nofun, ?_⟩
      exact hsuffix.trans ((bind_of_ok (expect_cons hs _)).trans (bind_of_ok ht))
    · exact .inr (.congr hsuffix (.cons hnext (expect_cons hs rest) (hstop.bind _)))
  · by_cases hfollow : front ts ∈ follow
    · exact .inl ⟨[], ts, none, rfl, .absent, fun _ => hfollow,
        suffix_of_reads .absent hfollow hsep⟩
    · have hmem : front ts ∉ q.reported := by simp [hreported, hfront, hfollow]
      refine .inr (.here hq (Stage.next_eq_none hmem) ?_)
      rw [suffix, get_bind, hreported]
      simp only [hfront, hfollow, ↓reduceIte]
      rfl

def HasWeights (ts : List Token) : Prop :=
  ∀ t ∈ ts, t.kind = .weight → ∃ w, Binary64.ofText? t.text = some w

theorem HasWeights.of_append {taken rest : List Token} (h : HasWeights (taken ++ rest)) :
    HasWeights rest :=
  fun t ht => h t (List.mem_append_right taken ht)

theorem HasWeights.of_cons {t : Token} {rest : List Token} (h : HasWeights (t :: rest)) :
    HasWeights rest :=
  fun t' ht => h t' (List.mem_cons_of_mem t ht)

theorem weight_of_reads {taken : List Token} {w : Binary64} (h : ReadsWeight taken w)
    (hrest : taken = [] → front rest ≠ .weight) : weight (taken ++ rest) = .ok (w, rest) := by
  rw [weight, get_bind]
  cases h with
  | absent =>
    simp only [List.nil_append, hrest rfl, ↓reduceIte]
    rfl
  | @given t w hk hw =>
    have hfront : front ([t] ++ rest) = .weight := hk
    simp only [hfront, ↓reduceIte]
    refine (bind_of_ok (expect_cons hk rest)).trans ?_
    rw [hw]
    rfl

/-- A token that is a weight but no number is the one thing that could keep this from succeeding. -/
theorem weight_cases (hts : HasWeights ts) :
    ∃ taken rest w, ts = taken ++ rest ∧ ReadsWeight taken w ∧
      (taken = [] → front rest ≠ .weight) := by
  by_cases hfront : front ts = .weight
  · obtain ⟨t, rest, rfl, hk⟩ := exists_cons_of_front hfront nofun
    obtain ⟨w, hw⟩ := hts t List.mem_cons_self hk
    exact ⟨[t], rest, w, rfl, .given hk hw, nofun⟩
  · exact ⟨[], ts, .one, rfl, .absent, fun _ => hfront⟩

theorem closeBrace_of_front {t : Token} (h : t.kind = .braceClose) (suffix : Option String)
    (rest : List Token) : closeBrace suffix (t :: rest) = .ok ((), rest) := by
  have hfront : front (t :: rest) = .braceClose := h
  rw [closeBrace, get_bind]
  simp only [hfront, ↓reduceIte]
  exact bind_of_ok (expect_cons h rest)

theorem closeBrace_cases {q : Stage} {suffix : Option String} (hq : q ≠ .complete)
    (hreported : q.reported =
      if suffix.isSome then [.weight, .braceClose] else [.separator, .weight, .braceClose])
    (hnext : front ts ≠ .braceClose → q.next (front ts) = none) :
    (∃ t rest, ts = t :: rest ∧ t.kind = .braceClose ∧ closeBrace suffix ts = .ok ((), rest)) ∨
      Stops q (closeBrace suffix) ts := by
  by_cases hfront : front ts = .braceClose
  · obtain ⟨t, rest, rfl, hk⟩ := exists_cons_of_front hfront nofun
    exact .inl ⟨t, rest, rfl, hk, closeBrace_of_front hk suffix rest⟩
  · refine .inr (.here hq (hnext hfront) ?_)
    rw [closeBrace, get_bind, hreported]
    simp only [hfront, ↓reduceIte]
    split
    · rfl
    · rfl

end Reading

end PetriShorthand
