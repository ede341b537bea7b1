import PetriShorthand.Assembly.Indexed
import PetriShorthand.Proofs.Bindings
import PetriShorthand.Proofs.Indexes

namespace PetriShorthand

section Runs

variable {σ τ α : Type} {R : σ → τ → Prop} {m m' : ExceptT Failure (StateM σ) Unit}
  {n n' : ExceptT Failure (StateM τ) Unit}

/-- From related states both come to the same result and to related states. -/
def Alike (R : σ → τ → Prop) (m : ExceptT Failure (StateM σ) Unit)
    (n : ExceptT Failure (StateM τ) Unit) : Prop :=
  ∀ x s, R x s → (m x).1 = (n s).1 ∧ R (m x).2 (n s).2

theorem Alike.bind (h : Alike R m n) (h' : Alike R m' n') :
    Alike R (m >>= fun _ => m') (n >>= fun _ => n') := by
  intro x s hR
  obtain ⟨hresult, hstate⟩ := h x s hR
  cases hm : m x with
  | mk out x' =>
    cases hn : n s with
    | mk out' s' =>
      rw [hm, hn] at hresult hstate
      obtain rfl : out = out' := hresult
      cases out with
      | error failure =>
        rw [bind_run_error hm, bind_run_error hn]
        exact ⟨rfl, hstate⟩
      | ok _ =>
        rw [bind_run_ok hm, bind_run_ok hn]
        exact h' x' s' hstate

theorem Alike.forM {f : α → ExceptT Failure (StateM σ) Unit}
    {g : α → ExceptT Failure (StateM τ) Unit} (h : ∀ a, Alike R (f a) (g a)) (as : List α) :
    Alike R (as.forM f) (as.forM g) := by
  induction as with
  | nil => exact fun x s hR => ⟨rfl, hR⟩
  | cons a as ih => exact (h a).bind ih

variable {α β : Type} {P Q : α → β → Prop} {o : Option α} {o' : Option β}

theorem rel_imp (h : ∀ a b, P a b → Q a b) (hP : Option.Rel P o o') : Option.Rel Q o o' := by
  cases hP with
  | none => exact .none
  | some hab => exact .some (h _ _ hab)

theorem eq_none_of_rel (hP : Option.Rel P o none) : o = none := by
  cases hP
  rfl

theorem exists_of_rel {b : β} (hP : Option.Rel P o (some b)) : ∃ a, o = some a ∧ P a b := by
  cases hP with
  | some hab => exact ⟨_, rfl, hab⟩

end Runs

/-- What is planned becomes the node, where a net gets so many new places and transitions. -/
inductive Planned.Becomes (net : Net) (places transitions : Nat) : Planned → Node → Prop
  | existing (n : Node) : Becomes net places transitions (.existing n) n
  | newPlace {i : Nat} : i < places →
      Becomes net places transitions (.newPlace i) (.place (net.places.length + i))
  | newTransition {i : Nat} : i < transitions →
      Becomes net places transitions (.newTransition i) (.transition (net.transitions.length + i))

namespace Planned

variable {net : Net} {places transitions : Nat} {planned : Planned} {n : Node}

theorem Becomes.kind_eq (h : planned.Becomes net places transitions n) : planned.kind = n.kind := by
  cases h with
  | existing n => rfl
  | newPlace _ => rfl
  | newTransition _ => rfl

theorem Becomes.mono {places' transitions' : Nat} (h : planned.Becomes net places transitions n)
    (hplaces : places ≤ places') (htransitions : transitions ≤ transitions') :
    planned.Becomes net places' transitions' n := by
  cases h with
  | existing n => exact .existing n
  | newPlace hi => exact .newPlace (Nat.lt_of_lt_of_le hi hplaces)
  | newTransition hi => exact .newTransition (Nat.lt_of_lt_of_le hi htransitions)

end Planned

/-- The tables answer as the assembly does. -/
structure IndexedAssembly.Indexes (x : IndexedAssembly) (s : Assembly) : Prop where
  net : x.net.Indexes s.net
  naming : x.naming.Indexes s.naming
  nodes : ∀ name, x.nodes[name]? = s.resolve name

abbrev Plan.Becomes (s : Assembly) (p : Plan) : Planned → Node → Prop :=
  Planned.Becomes s.net p.places.length p.transitions.length

/-- The plan with an overlay plans what the other one does. -/
structure IndexedPlan.Indexes (x : IndexedAssembly) (s : Assembly) (q : IndexedPlan) (p : Plan) :
    Prop where
  places : q.places = p.places
  transitions : q.transitions = p.transitions.map fun t => (t.key, t)
  path : List.Forall₂ (p.Becomes s) q.path p.path
  redescriptions : q.redescriptions = p.redescriptions
  resolve : ∀ name, Option.Rel (p.Becomes s) (x.resolve q name) (p.resolve s name)

namespace IndexedPlan

def add (q : IndexedPlan) : Reference → IndexedPlan
  | .place label => q.addPlace label
  | .transition t => q.addTransition t

def reuse (net : IndexedNet) (q : IndexedPlan) : Reference → Planned → IndexedPlan
  | .transition t, .existing (.transition i) =>
    (q.compareWeight net i t).visit (.existing (.transition i))
  | _, planned => q.visit planned

def next (q : IndexedPlan) : Reference → Planned
  | .place _ => .newPlace q.places.length
  | .transition _ => .newTransition q.transitions.length

variable {x : IndexedAssembly} {s : Assembly} {q : IndexedPlan} {p : Plan} {r : Reference}
  {planned : Planned} {n : Node}

theorem resolve_add (name : String) : x.resolve (q.add r) name =
    if r.name = name then some (q.next r) else x.resolve q name := by
  have hoverlay : (q.add r).overlay = q.overlay.insert r.name (q.next r) := by
    cases r with
    | place label => rfl
    | transition t => rfl
  rw [IndexedAssembly.resolve, hoverlay, Std.HashMap.getElem?_insert]
  by_cases he : r.name = name
  · simp [he]
  · simp [he, IndexedAssembly.resolve]

theorem indexes_empty (h : x.Indexes s) : empty.Indexes x s .empty := by
  refine ⟨rfl, rfl, .nil, rfl, fun name => ?_⟩
  have hnone : (Plan.empty.resolve s name) = s.resolve name := by
    rw [Plan.resolve, Plan.newPlace?, Plan.newTransition?]
    exact Option.or_none
  have hsame : x.resolve empty name = (s.resolve name).map .existing := by
    rw [IndexedAssembly.resolve, h.nodes]
    exact congrArg (Option.or · _) Std.HashMap.getElem?_empty
  rw [hnone, hsame]
  cases s.resolve name with
  | none => exact .none
  | some n => exact .some (.existing n)

theorem Indexes.visit (h : q.Indexes x s p) (hn : p.Becomes s planned n) :
    (q.visit planned).Indexes x s (p.visit n) :=
  ⟨h.places, h.transitions, List.rel_append h.path (.cons hn .nil), h.redescriptions, h.resolve⟩

theorem becomes_nextNode (h : q.Indexes x s p) :
    (p.add s r).Becomes s (q.next r) (p.nextNode s r) := by
  cases r with
  | place label =>
    have hnext : q.next (.place label) = .newPlace p.places.length := by simp [next, h.places]
    have hlt : p.places.length < (p.places ++ [label]).length := by simp
    rw [hnext]
    exact .newPlace hlt
  | transition t =>
    have hnext : q.next (.transition t) = .newTransition p.transitions.length := by
      simp [next, h.transitions]
    have hlt : p.transitions.length < (p.transitions ++ [t]).length := by simp
    rw [hnext]
    exact .newTransition hlt

theorem becomes_add (h : p.Becomes s planned n) : (p.add s r).Becomes s planned n := by
  cases r with
  | place label => exact h.mono (by simp [Plan.add, Plan.addPlace, Plan.visit]) (Nat.le_refl _)
  | transition t =>
    exact h.mono (Nat.le_refl _) (by simp [Plan.add, Plan.addTransition, Plan.visit])

theorem Indexes.add (h : q.Indexes x s p) (hnone : p.resolve s r.name = none) :
    (q.add r).Indexes x s (p.add s r) := by
  have hpath : (q.add r).path = q.path ++ [q.next r] := by
    cases r with
    | place label => rfl
    | transition t => rfl
  have hnotes : (q.add r).redescriptions = (p.add s r).redescriptions := by
    cases r with
    | place label => exact h.redescriptions
    | transition t => exact h.redescriptions
  refine ⟨?_, ?_, ?_, hnotes, fun name => ?_⟩
  · cases r with
    | place label => exact congrArg (· ++ [label]) h.places
    | transition t => exact h.places
  · cases r with
    | place label => exact h.transitions
    | transition t =>
      change q.transitions ++ [(t.key, t)] = (p.transitions ++ [t]).map fun t => (t.key, t)
      simp [h.transitions]
  · rw [hpath, Plan.path_add]
    exact List.rel_append (h.path.imp fun _ _ => becomes_add) (.cons (becomes_nextNode h) .nil)
  · rw [resolve_add]
    by_cases he : r.name = name
    · subst he
      rw [if_pos rfl, Plan.resolve_add_self hnone]
      exact .some (becomes_nextNode h)
    · rw [if_neg he, Plan.resolve_add_of_ne (Ne.symm he)]
      exact rel_imp (fun _ _ => becomes_add) (h.resolve name)

theorem Indexes.compareWeight (hx : x.Indexes s) (h : q.Indexes x s p) (i : Nat)
    (t : TransitionRef) :
    (q.compareWeight x.net i t).Indexes x s (p.compareWeight s i t) := by
  rw [IndexedPlan.compareWeight, Plan.compareWeight, hx.net.transitions]
  cases s.net.transitions[i]? with
  | none => exact h
  | some old =>
    by_cases hsame : sameWeight old.weight t.weight
    · simpa [hsame] using h
    · have hnotes := congrArg (· ++ [Redescription.mk t old.weight]) h.redescriptions
      simp only [hsame]
      exact ⟨h.places, h.transitions, h.path, hnotes, h.resolve⟩

theorem Indexes.reuse (hx : x.Indexes s) (h : q.Indexes x s p) (hn : p.Becomes s planned n)
    (hkind : n.kind = r.kind) : (q.reuse x.net r planned).Indexes x s (p.reuse s r n) := by
  cases r with
  | place label => exact h.visit hn
  | transition t =>
    cases n with
    | place i => cases hkind
    | transition i =>
      cases planned with
      | existing n =>
        cases hn
        exact (h.compareWeight hx i t).visit (.existing _)
      | newPlace i => cases hn
      | newTransition j =>
        cases hn with | newTransition hj =>
        -- a transition that is only planned has no weight yet to compare with
        have hnone : s.net.transitions[s.net.transitions.length + j]? = none :=
          List.getElem?_eq_none (Nat.le_add_right _ _)
        have hsame : p.compareWeight s (s.net.transitions.length + j) t = p := by
          rw [Plan.compareWeight, hnone]
        rw [Plan.reuse, hsame]
        exact h.visit (.newTransition hj)

end IndexedPlan

namespace IndexedPlanning

variable {x : IndexedAssembly} {s : Assembly} {r : Reference} {q : IndexedPlan} {planned : Planned}

def refer (x : IndexedAssembly) : Reference → IndexedPlanning Unit
  | .place label => place x label
  | .transition t => transition x t

theorem get_bind_run (f : IndexedPlan → IndexedPlanning Unit) (q : IndexedPlan) :
    (get >>= f) q = f q q :=
  rfl

theorem refer_of_none (h : x.resolve q r.name = none) : refer x r q = (.ok (), q.add r) := by
  cases r with
  | place label =>
    dsimp only [Reference.name] at h
    rw [refer, place, get_bind_run, h]
    rfl
  | transition t =>
    dsimp only [Reference.name] at h
    rw [refer, transition, get_bind_run, h]
    rfl

theorem refer_of_kind (h : x.resolve q r.name = some planned) (hkind : planned.kind = r.kind) :
    refer x r q = (.ok (), q.reuse x.net r planned) := by
  cases r with
  | place label =>
    dsimp only [Reference.name, Reference.kind] at h hkind
    rw [refer, place, get_bind_run, h]
    dsimp only
    rw [if_pos hkind]
    rfl
  | transition t =>
    dsimp only [Reference.name, Reference.kind] at h hkind
    rw [refer, transition, get_bind_run, h]
    dsimp only
    rw [if_pos hkind]
    rcases planned with (i | i) | i | i
    · cases hkind
    · rfl
    · cases hkind
    · rfl

theorem refer_of_other_kind (h : x.resolve q r.name = some planned)
    (hkind : planned.kind ≠ r.kind) :
    refer x r q = (.error (.kindConflict r.name planned.kind r.kind), q) := by
  cases r with
  | place label =>
    dsimp only [Reference.name, Reference.kind] at h hkind
    rw [refer, place, get_bind_run, h]
    dsimp only
    rw [if_neg hkind]
    rfl
  | transition t =>
    dsimp only [Reference.name, Reference.kind] at h hkind
    rw [refer, transition, get_bind_run, h]
    dsimp only
    rw [if_neg hkind]
    rfl

theorem alike_refer (hx : x.Indexes s) (r : Reference) :
    Alike (IndexedPlan.Indexes x s) (refer x r) (Planning.refer s r) := by
  intro q p h
  have hrel := h.resolve r.name
  cases hrun : Planning.refer s r p with
  | mk out p' =>
    rcases Planning.refer_cases hrun with
      ⟨hnone, rfl, rfl⟩ | ⟨n, hn, hkind, rfl, rfl⟩ | ⟨n, hn, hkind, rfl, rfl⟩
    · rw [hnone] at hrel
      rw [refer_of_none (eq_none_of_rel hrel)]
      exact ⟨rfl, h.add hnone⟩
    · rw [hn] at hrel
      obtain ⟨planned, hfound, hbecomes⟩ := exists_of_rel hrel
      rw [refer_of_kind hfound (hbecomes.kind_eq.trans hkind)]
      exact ⟨rfl, h.reuse hx hbecomes hkind⟩
    · rw [hn] at hrel
      obtain ⟨planned, hfound, hbecomes⟩ := exists_of_rel hrel
      rw [refer_of_other_kind hfound (hbecomes.kind_eq ▸ hkind), hbecomes.kind_eq]
      exact ⟨rfl, h⟩

theorem alike_chain (hx : x.Indexes s) (c : Chain) :
    Alike (IndexedPlan.Indexes x s) (chain x c) (Planning.chain s c) := by
  have hstep : ∀ st, Alike (IndexedPlan.Indexes x s) (step x st) (Planning.step s st) :=
    fun st => (alike_refer hx (.transition st.transition)).bind (alike_refer hx (.place st.place))
  exact (alike_refer hx (.place c.head)).bind (.forM hstep c.steps)

end IndexedPlanning

end PetriShorthand
