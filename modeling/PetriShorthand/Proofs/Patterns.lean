import PetriShorthand.Proofs.Lexemes

namespace PetriShorthand

theorem isAlpha_iff_toNat {c : Char} :
    c.isAlpha ↔ (65 ≤ c.toNat ∧ c.toNat ≤ 90) ∨ (97 ≤ c.toNat ∧ c.toNat ≤ 122) := by
  have hupper : c.isUpper ↔ 65 ≤ c.toNat ∧ c.toNat ≤ 90 := decide_eq_true_iff
  have hlower : c.isLower ↔ 97 ≤ c.toNat ∧ c.toNat ≤ 122 :=
    Bool.and_eq_true_iff.trans (and_congr decide_eq_true_iff decide_eq_true_iff)
  exact Bool.or_eq_true_iff.trans (or_congr hupper hlower)

theorem isAlphanum_of_isAlpha {c : Char} (h : c.isAlpha) : c.isAlphanum :=
  Bool.or_eq_true_iff.mpr (.inl h)

theorem isAlphanum_of_isDigit {c : Char} (h : c.isDigit) : c.isAlphanum :=
  Bool.or_eq_true_iff.mpr (.inr h)

theorem not_isBlank_of_isAlphanum {c : Char} (h : c.isAlphanum) : ¬isBlank c := by
  have hrange : ((65 ≤ c.toNat ∧ c.toNat ≤ 90) ∨ (97 ≤ c.toNat ∧ c.toNat ≤ 122)) ∨
      (48 ≤ c.toNat ∧ c.toNat ≤ 57) := by
    rcases Bool.or_eq_true_iff.mp h with halpha | hdigit
    · exact .inl (isAlpha_iff_toNat.mp halpha)
    · exact .inr (Char.isDigit_iff_toNat.mp hdigit)
  simp only [isBlank, blankRanges, List.any_cons, List.any_nil, Bool.or_eq_true, Bool.and_eq_true,
    decide_eq_true_eq, Bool.false_eq_true, or_false]
  omega

theorem not_isBlank_of_isDigit {c : Char} (h : c.isDigit) : ¬isBlank c :=
  not_isBlank_of_isAlphanum (isAlphanum_of_isDigit h)

theorem not_isAlpha_of_isDigit {c : Char} (h : c.isDigit) : ¬c.isAlpha := by
  have hrange : 48 ≤ c.toNat ∧ c.toNat ≤ 57 := Char.isDigit_iff_toNat.mp h
  rw [isAlpha_iff_toNat]
  omega

namespace Token.Kind

/-- The texts of a kind: its one lexeme, or what characters of its classes make up. -/
inductive Covers : Kind → List Char → Prop
  | lexeme {kind : Kind} {text : String} : kind.lexeme? = some text → Covers kind text.toList
  | label {c : Char} {word : List Char} : c.isAlpha → (∀ d ∈ word, d.isAlphanum) →
      Covers .label (c :: word)
  | weight {whole fraction : List Char} : whole ≠ [] → (∀ c ∈ whole, c.isDigit) →
      fraction ≠ [] → (∀ c ∈ fraction, c.isDigit) → Covers .weight (whole ++ '.' :: fraction)
  | number {digits : List Char} : digits ≠ [] → (∀ c ∈ digits, c.isDigit) → Covers .number digits

def Occurs (kind : Kind) (cs : List Char) : Prop := ∃ lexeme, kind.Covers lexeme ∧ lexeme <+: cs

structure IsLongest (kind : Kind) (lexeme cs : List Char) : Prop where
  covers : kind.Covers lexeme
  front : lexeme <+: cs
  longest : ∀ other, kind.Covers other → other <+: cs → other.length ≤ lexeme.length

/-- The lexeme is the longest of its kind at the front, where no kind tried earlier has any. -/
def Wins (kind : Kind) (lexeme cs : List Char) : Prop :=
  kind.IsLongest lexeme cs ∧
    ∃ before after, inOrder = before ++ kind :: after ∧ ∀ k ∈ before, ¬k.Occurs cs

variable {kind : Kind} {cs lexeme rest : List Char}

theorem split?_of_lexeme? {text : String} (h : kind.lexeme? = some text) (cs : List Char) :
    kind.split? cs = if text.toList.isPrefixOf cs then
      some (text.toList, cs.drop text.toList.length) else none := by
  cases kind <;> cases h <;> rfl

theorem covers_of_split? (h : kind.split? cs = some (lexeme, rest)) : kind.Covers lexeme := by
  unfold split? at h
  split at h
  next c cs =>
    obtain ⟨halpha, h⟩ := Option.ite_none_right_eq_some.mp h
    obtain ⟨rfl, -⟩ := Prod.mk.inj (Option.some.inj h)
    exact .label halpha (mem_of_splitWhile_eq rfl)
  next => cases h
  next =>
    split at h
    next whole afterWhole hwhole =>
    split at h
    next afterPoint =>
      split at h
      next fraction rest' hfraction =>
      obtain ⟨⟨hne, hne'⟩, h⟩ := Option.ite_none_right_eq_some.mp h
      obtain ⟨rfl, -⟩ := Prod.mk.inj (Option.some.inj h)
      exact .weight hne (mem_of_splitWhile_eq hwhole) hne' (mem_of_splitWhile_eq hfraction)
    next => cases h
  next =>
    split at h
    next digits rest' hdigits =>
    obtain ⟨hne, h⟩ := Option.ite_none_right_eq_some.mp h
    obtain ⟨rfl, -⟩ := Prod.mk.inj (Option.some.inj h)
    exact .number hne (mem_of_splitWhile_eq hdigits)
  next =>
    obtain ⟨text, htext, h⟩ := Option.bind_eq_some_iff.mp h
    obtain ⟨-, h⟩ := Option.ite_none_right_eq_some.mp h
    obtain ⟨rfl, -⟩ := Prod.mk.inj (Option.some.inj h)
    exact .lexeme htext

theorem splitWhile_append {p : Char → Bool} {front : List Char} (h : ∀ c ∈ front, p c)
    (rest : List Char) :
    splitWhile p (front ++ rest) = (front ++ rest.takeWhile p, rest.dropWhile p) := by
  rw [splitWhile, List.takeWhile_append_of_pos h, List.dropWhile_append_of_pos h]

/-- What a kind covers at the front is found there, or something longer is. -/
theorem exists_split?_of_covers (h : kind.Covers lexeme) (rest : List Char) :
    ∃ longer rest', kind.split? (lexeme ++ rest) = some (longer, rest') ∧
      lexeme.length ≤ longer.length := by
  cases h with
  | @lexeme _ text htext =>
    refine ⟨text.toList, rest, ?_, Nat.le_refl _⟩
    have hfront : text.toList.isPrefixOf (text.toList ++ rest) :=
      List.isPrefixOf_iff_prefix.mpr (List.prefix_append _ _)
    rw [split?_of_lexeme? htext, if_pos hfront, List.drop_left]
  | @label c word halpha hword =>
    refine ⟨c :: (word ++ rest.takeWhile Char.isAlphanum), rest.dropWhile Char.isAlphanum, ?_, ?_⟩
    · rw [List.cons_append, split?, if_pos halpha, splitWhile_append hword]
    · simp
  | @weight whole fraction hne hwhole hne' hfraction =>
    refine ⟨whole ++ '.' :: (fraction ++ rest.takeWhile Char.isDigit),
      rest.dropWhile Char.isDigit, ?_, ?_⟩
    · have hpoint : ∀ c ∈ ('.' :: (fraction ++ rest)).head?, ¬c.isDigit := by
        rintro c hc
        cases hc
        decide
      have hfound : fraction ++ rest.takeWhile Char.isDigit ≠ [] := by simp [hne']
      rw [List.append_assoc, List.cons_append, split?, splitWhile_append_of_all hwhole hpoint]
      simp only [splitWhile_append hfraction]
      exact if_pos ⟨hne, hfound⟩
    · simp
  | number hne hdigits =>
    refine ⟨lexeme ++ rest.takeWhile Char.isDigit, rest.dropWhile Char.isDigit, ?_, ?_⟩
    · rw [split?, splitWhile_append hdigits]
      exact if_pos (by simp [hne])
    · simp

theorem split?_eq_none_iff : kind.split? cs = none ↔ ¬kind.Occurs cs := by
  constructor
  · rintro hnone ⟨lexeme, hcovers, rest, rfl⟩
    obtain ⟨longer, rest', hsplit, -⟩ := exists_split?_of_covers hcovers rest
    rw [hnone] at hsplit
    cases hsplit
  · intro hnot
    cases hsplit : kind.split? cs with
    | none => rfl
    | some found =>
      obtain ⟨-, happend⟩ := split?_eq_some hsplit
      exact absurd ⟨found.1, covers_of_split? hsplit, found.2, happend⟩ hnot

theorem split?_eq_some_iff :
    kind.split? cs = some (lexeme, rest) ↔ kind.IsLongest lexeme cs ∧ lexeme ++ rest = cs := by
  constructor
  · intro h
    obtain ⟨-, happend⟩ := split?_eq_some h
    refine ⟨⟨covers_of_split? h, ⟨rest, happend⟩, ?_⟩, happend⟩
    rintro other hother ⟨after, rfl⟩
    obtain ⟨longer, rest', hsplit, hle⟩ := exists_split?_of_covers hother after
    rw [h] at hsplit
    cases hsplit
    exact hle
  · rintro ⟨⟨hcovers, -, hlongest⟩, rfl⟩
    obtain ⟨longer, rest', hsplit, hle⟩ := exists_split?_of_covers hcovers rest
    obtain ⟨-, happend⟩ := split?_eq_some hsplit
    have hle' := hlongest longer (covers_of_split? hsplit) ⟨rest', happend⟩
    obtain ⟨rfl, rfl⟩ := List.append_inj happend (by omega)
    exact hsplit

theorem first?_eq_some_iff :
    first? cs = some (kind, lexeme, rest) ↔ kind.Wins lexeme cs ∧ lexeme ++ rest = cs := by
  have hkind : ∀ k, (k.split? cs).map (k, ·) = some (kind, lexeme, rest) ↔
      k = kind ∧ kind.split? cs = some (lexeme, rest) := by
    intro k
    rw [Option.map_eq_some_iff]
    constructor
    · rintro ⟨found, hsplit, he⟩
      cases he
      exact ⟨rfl, hsplit⟩
    · rintro ⟨rfl, hsplit⟩
      exact ⟨_, hsplit, rfl⟩
  rw [first?, List.findSome?_eq_some_iff]
  simp only [hkind, Option.map_eq_none_iff, split?_eq_none_iff, split?_eq_some_iff]
  constructor
  · rintro ⟨before, k, after, horder, ⟨rfl, hlongest, happend⟩, hbefore⟩
    exact ⟨⟨hlongest, before, after, horder, hbefore⟩, happend⟩
  · rintro ⟨⟨hlongest, before, after, horder, hbefore⟩, happend⟩
    exact ⟨before, kind, after, horder, ⟨rfl, hlongest, happend⟩, hbefore⟩

theorem Covers.mem_inOrder (h : kind.Covers lexeme) : kind ∈ inOrder := by
  cases h with
  | lexeme htext => cases kind <;> first | decide | cases htext
  | label => decide
  | weight => decide
  | number => decide

theorem first?_eq_none_iff : first? cs = none ↔ ∀ k : Kind, ¬k.Occurs cs := by
  rw [first?, List.findSome?_eq_none_iff]
  simp only [Option.map_eq_none_iff, split?_eq_none_iff]
  constructor
  · rintro h k ⟨lexeme, hcovers, hfront⟩
    exact h k hcovers.mem_inOrder ⟨lexeme, hcovers, hfront⟩
  · exact fun h k _ => h k

theorem Covers.ne_nil (h : kind.Covers lexeme) : lexeme ≠ [] := by
  cases h with
  | lexeme htext => exact lexeme?_ne_empty htext
  | label => simp
  | weight => simp
  | number hne => exact hne

theorem Covers.ne_finish (h : kind.Covers lexeme) : kind ≠ .finish := by
  intro hk
  have hmem := h.mem_inOrder
  rw [hk] at hmem
  revert hmem
  decide

theorem Covers.head_not_blank (h : kind.Covers lexeme) : ∀ c ∈ lexeme.head?, ¬isBlank c := by
  intro c hc
  cases h with
  | lexeme htext => cases kind <;> cases htext <;> cases hc <;> decide
  | label halpha =>
    cases hc
    exact not_isBlank_of_isAlphanum (isAlphanum_of_isAlpha halpha)
  | @weight whole fraction hne hwhole =>
    obtain ⟨d, whole, rfl⟩ := List.exists_cons_of_ne_nil hne
    cases hc
    exact not_isBlank_of_isDigit (hwhole c List.mem_cons_self)
  | number _ hdigits => exact not_isBlank_of_isDigit (hdigits c (List.mem_of_mem_head? hc))

theorem Covers.isAlphanum (h : Covers .label lexeme) : ∀ c ∈ lexeme, c.isAlphanum := by
  cases h with
  | lexeme h => cases h
  | label halpha hword =>
    exact List.forall_mem_cons.mpr ⟨isAlphanum_of_isAlpha halpha, hword⟩

theorem Covers.eq_of_lexeme? {text : String} (h : kind.Covers lexeme)
    (htext : kind.lexeme? = some text) : lexeme = text.toList := by
  cases h with
  | lexeme h =>
    rw [htext] at h
    cases h
    rfl
  | label => cases htext
  | weight => cases htext
  | number => cases htext

theorem Occurs.prefix_of_lexeme? {text : String} (h : kind.Occurs cs)
    (htext : kind.lexeme? = some text) : text.toList <+: cs := by
  obtain ⟨lexeme, hcovers, hprefix⟩ := h
  rwa [hcovers.eq_of_lexeme? htext] at hprefix

theorem not_occurs_of_isAlphanum {c : Char} (hc : c.isAlphanum) (cs : List Char) :
    ∀ k ∈ [squareOpen, squareClose, braceOpen, braceClose, separator, arrow],
      ¬k.Occurs (c :: cs) := by
  have hmark : ∀ k ∈ [squareOpen, squareClose, braceOpen, braceClose, separator, arrow],
      ∃ text, k.lexeme? = some text ∧ ¬text.toList.head?.any Char.isAlphanum := by
    decide
  intro k hk hoccurs
  obtain ⟨text, htext, hhead⟩ := hmark k hk
  obtain ⟨d, tail, hd⟩ := List.exists_cons_of_ne_nil (lexeme?_ne_empty htext)
  have hprefix := hoccurs.prefix_of_lexeme? htext
  rw [hd] at hprefix hhead
  obtain ⟨rfl, -⟩ := List.cons_prefix_cons.mp hprefix
  exact hhead hc

theorem wins_of_lexeme? {text : String} (h : kind.lexeme? = some text) (rest : List Char) :
    kind.Wins text.toList (text.toList ++ rest) := by
  have hfirst : first? (text.toList ++ rest) = some (kind, text.toList, rest) := by
    cases kind <;> cases h <;> rfl
  exact (first?_eq_some_iff.mp hfirst).1

theorem Wins.unique {kind' : Kind} {lexeme' : List Char} (h : kind.Wins lexeme cs)
    (h' : kind'.Wins lexeme' cs) : kind = kind' ∧ lexeme = lexeme' := by
  obtain ⟨rest, happend⟩ := h.1.front
  obtain ⟨rest', happend'⟩ := h'.1.front
  have hfirst := first?_eq_some_iff.mpr ⟨h, happend⟩
  rw [first?_eq_some_iff.mpr ⟨h', happend'⟩] at hfirst
  cases hfirst
  exact ⟨rfl, rfl⟩

/-- Behind a text of the kind the character leads on to a longer one. -/
def goesOn (kind : Kind) (c : Char) : Bool :=
  match kind with
  | label => c.isAlphanum
  | weight => c.isDigit
  -- with a point and more digits behind it the number would be a weight
  | number => c.isDigit || c == '.'
  | _ => false

theorem not_isBlank_of_goesOn {c : Char} (h : kind.goesOn c) : ¬isBlank c := by
  cases kind with
  | label => exact not_isBlank_of_isAlphanum h
  | weight => exact not_isBlank_of_isDigit h
  | number =>
    rcases Bool.or_eq_true_iff.mp h with hc | hc
    · exact not_isBlank_of_isDigit hc
    · rw [beq_iff_eq.mp hc]
      decide
  | _ => cases h

def Halts (kind : Kind) (rest : List Char) : Prop := ∀ c ∈ rest.head?, ¬kind.goesOn c

/-- Nothing that a name or a number could go on with follows. -/
def Ends (rest : List Char) : Prop := ∀ c ∈ rest.head?, ¬c.isAlphanum ∧ c ≠ '.'

theorem Ends.halts (h : Ends rest) (kind : Kind) : kind.Halts rest := by
  intro c hc hgoes
  obtain ⟨halphanum, hpoint⟩ := h c hc
  have hdigit : ¬c.isDigit := fun hdigit => halphanum (isAlphanum_of_isDigit hdigit)
  cases kind with
  | label => exact halphanum hgoes
  | weight => exact hdigit hgoes
  | number =>
    rcases Bool.or_eq_true_iff.mp hgoes with hc | hc
    · exact hdigit hc
    · exact hpoint (beq_iff_eq.mp hc)
  | _ => cases hgoes

theorem Halts.not_isDigit (h : number.Halts rest) : ∀ c ∈ rest.head?, ¬c.isDigit :=
  fun c hc hdigit => h c hc (Bool.or_eq_true_iff.mpr (.inl hdigit))

theorem not_tau_prefix_append (htau : ¬"tau".toList <+: lexeme) (hrest : label.Halts rest) :
    ¬"tau".toList <+: lexeme ++ rest := by
  intro hfront
  rcases List.prefix_or_prefix_of_prefix hfront (List.prefix_append lexeme rest) with h | h
  · exact htau h
  · obtain ⟨more, hmore⟩ := h
    have hletters : ∀ c ∈ "tau".toList, c.isAlphanum := List.all_eq_true.mp (by decide)
    have hall : ∀ c ∈ more, c.isAlphanum := by
      intro c hc
      exact hletters c (hmore ▸ List.mem_append_right lexeme hc)
    cases more with
    | nil => exact htau ⟨[], by rw [List.append_nil, ← hmore, List.append_nil]⟩
    | cons c more =>
      rw [← hmore, List.prefix_append_right_inj] at hfront
      obtain ⟨after, rfl⟩ := hfront
      exact hrest c rfl (hall c List.mem_cons_self)

theorem wins_label (hlabel : label.Covers lexeme) (htau : ¬"tau".toList <+: lexeme)
    (hrest : label.Halts rest) : label.Wins lexeme (lexeme ++ rest) := by
  cases hlabel with
  | lexeme h => cases h
  | @label c word halpha hword =>
    have hsplit : label.split? (c :: word ++ rest) = some (c :: word, rest) := by
      rw [List.cons_append, split?, if_pos halpha, splitWhile_append_of_all hword hrest]
    have hc : c.isAlphanum := isAlphanum_of_isAlpha halpha
    refine ⟨(split?_eq_some_iff.mp hsplit).1,
      [squareOpen, squareClose, braceOpen, braceClose, separator, arrow] ++ [tau],
      [weight, number], rfl, ?_⟩
    intro k hk
    rcases List.mem_append.mp hk with hk | hk
    · exact not_occurs_of_isAlphanum hc _ k hk
    · obtain rfl := List.mem_singleton.mp hk
      exact fun hoccurs => not_tau_prefix_append htau hrest (hoccurs.prefix_of_lexeme? rfl)

theorem not_occurs_of_isDigit {c : Char} (hc : c.isDigit) (cs : List Char) :
    ∀ k ∈ [squareOpen, squareClose, braceOpen, braceClose, separator, arrow] ++ [tau, label],
      ¬k.Occurs (c :: cs) := by
  intro k hk
  rcases List.mem_append.mp hk with hk | hk
  · exact not_occurs_of_isAlphanum (isAlphanum_of_isDigit hc) cs k hk
  · simp only [List.mem_cons, List.not_mem_nil, or_false] at hk
    rcases hk with rfl | rfl
    · intro hoccurs
      obtain ⟨rfl, -⟩ := List.cons_prefix_cons.mp (hoccurs.prefix_of_lexeme? rfl)
      exact absurd hc (by decide)
    · rw [← split?_eq_none_iff, split?, if_neg (not_isAlpha_of_isDigit hc)]

theorem wins_weight (hweight : weight.Covers lexeme) (hrest : weight.Halts rest) :
    weight.Wins lexeme (lexeme ++ rest) := by
  cases hweight with
  | lexeme h => cases h
  | @weight whole fraction hne hwhole hne' hfraction =>
    have hpoint : ∀ c ∈ ('.' :: (fraction ++ rest)).head?, ¬c.isDigit := by
      rintro c hc
      cases hc
      decide
    have hsplit : weight.split? (whole ++ '.' :: fraction ++ rest) =
        some (whole ++ '.' :: fraction, rest) := by
      rw [List.append_assoc, List.cons_append, split?, splitWhile_append_of_all hwhole hpoint]
      simp only [splitWhile_append_of_all hfraction hrest]
      exact if_pos ⟨hne, hne'⟩
    refine ⟨(split?_eq_some_iff.mp hsplit).1,
      [squareOpen, squareClose, braceOpen, braceClose, separator, arrow] ++ [tau, label],
      [number], rfl, ?_⟩
    obtain ⟨c, cs, rfl⟩ := List.exists_cons_of_ne_nil hne
    exact not_occurs_of_isDigit (hwhole c List.mem_cons_self) _

theorem wins_number (hnumber : number.Covers lexeme) (hrest : number.Halts rest) :
    number.Wins lexeme (lexeme ++ rest) := by
  cases hnumber with
  | lexeme h => cases h
  | number hne hdigits =>
    have hstop := splitWhile_append_of_all hdigits hrest.not_isDigit
    have hsplit : number.split? (lexeme ++ rest) = some (lexeme, rest) := by
      rw [split?, hstop]
      exact if_pos hne
    refine ⟨(split?_eq_some_iff.mp hsplit).1,
      [squareOpen, squareClose, braceOpen, braceClose, separator, arrow] ++ [tau, label] ++
        [weight], [], rfl, ?_⟩
    intro k hk
    rcases List.mem_append.mp hk with hk | hk
    · obtain ⟨c, cs, rfl⟩ := List.exists_cons_of_ne_nil hne
      exact not_occurs_of_isDigit (hdigits c List.mem_cons_self) _ k hk
    · obtain rfl := List.mem_singleton.mp hk
      rw [← split?_eq_none_iff, split?, hstop]
      simp only
      split
      next after => exact absurd rfl (hrest '.' rfl)
      next => rfl

theorem wins_of_halts (h : kind.Covers lexeme) (htau : kind = label → ¬"tau".toList <+: lexeme)
    (hrest : kind.Halts rest) : kind.Wins lexeme (lexeme ++ rest) := by
  cases kind with
  | label => exact wins_label h (htau rfl) hrest
  | weight => exact wins_weight h hrest
  | number => exact wins_number h hrest
  | finish => exact absurd rfl h.ne_finish
  | _ =>
    rw [h.eq_of_lexeme? rfl]
    exact wins_of_lexeme? rfl rest

theorem Wins.not_tau_prefix (h : label.Wins lexeme cs) : ¬"tau".toList <+: lexeme := by
  rintro ⟨more, rfl⟩
  obtain ⟨rest, rfl⟩ := h.1.front
  have hmark : tau.lexeme? = some "tau" := rfl
  have hwins := wins_of_lexeme? hmark (more ++ rest)
  rw [← List.append_assoc] at hwins
  obtain ⟨hkind, -⟩ := h.unique hwins
  cases hkind

theorem Covers.concat {c : Char} (h : kind.Covers lexeme) (hc : kind.goesOn c) (hpoint : c ≠ '.') :
    kind.Covers (lexeme ++ [c]) := by
  cases h with
  | lexeme htext => cases kind <;> first | cases hc | cases htext
  | label halpha hword =>
    exact .label halpha (List.forall_mem_append.mpr ⟨hword, List.forall_mem_singleton.mpr hc⟩)
  | weight hne hwhole hne' hfraction =>
    rw [List.append_assoc, List.cons_append]
    refine .weight hne hwhole (by simp) ?_
    exact List.forall_mem_append.mpr ⟨hfraction, List.forall_mem_singleton.mpr hc⟩
  | number hne hdigits =>
    have hdigit : c.isDigit := by
      rcases Bool.or_eq_true_iff.mp hc with hc | hc
      · exact hc
      · exact absurd (beq_iff_eq.mp hc) hpoint
    refine .number (by simp) ?_
    exact List.forall_mem_append.mpr ⟨hdigits, List.forall_mem_singleton.mpr hdigit⟩

/-- Behind the text that wins nothing follows with which it would go on, except that a point may
follow a number. -/
theorem Wins.halts (h : kind.Wins lexeme (lexeme ++ rest)) (hpoint : rest.head? ≠ some '.') :
    kind.Halts rest := by
  intro c hc hgoes
  obtain ⟨tail, rfl⟩ := List.head?_eq_some_iff.mp hc
  have hne : c ≠ '.' := fun he => hpoint (congrArg some he)
  have hlonger := h.1.longest (lexeme ++ [c]) (h.1.covers.concat hgoes hne) ⟨tail, by simp⟩
  rw [List.length_append, List.length_singleton] at hlonger
  omega

end Token.Kind

end PetriShorthand
