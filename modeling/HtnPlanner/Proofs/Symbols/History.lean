import HtnPlanner.Proofs.Symbols.Declarations
import Mathlib.Data.List.Nodup

/-!
The symbols after any sequence of operations, and along with them what was declared. A type is below those that it
was declared to be below, and domains that were once filled in stay right.
-/

namespace HtnPlanner.Symbols

open Relation

/-- An operation on the symbols. -/
inductive Change
  | declareType (name : String)
  | addSupertype (sub sup : Nat)
  | declareUnion (members : List Nat)
  | resolve (ref : Definition.TypeRef)
  | declareConstant (name : String) (type : Nat)
  | declarePredicate (name : String) (signature : List Nat)
  | declareTask (name : String) (signature : TaskSignature)
  | close
  deriving DecidableEq, Repr

/-- What the symbols are after an operation. One that failed has changed nothing. -/
def after (s : Symbols) : Except GroundingError (Nat × Symbols) → Symbols
  | .ok (_, s') => s'
  | .error _ => s

theorem after_induction {P : Symbols → Prop} {s : Symbols} {r : Except GroundingError (Nat × Symbols)} (hs : P s)
    (hr : ∀ t s', r = .ok (t, s') → P s') : P (s.after r) := by
  cases r with
  | error e => exact hs
  | ok r => exact hr r.1 r.2 rfl

namespace Change

/-- The types that it mentions by their ids are there. -/
def Fits (s : Symbols) : Change → Prop
  | addSupertype sub sup => sub < s.types.length ∧ sup < s.types.length
  | declareUnion members => ∀ m ∈ members, m < s.types.length
  | declareConstant _ type => type < s.types.length
  | declarePredicate _ signature => ∀ t ∈ signature, t < s.types.length
  | declareTask _ signature => ∀ t ∈ signature.parameters, t < s.types.length
  | declareType _ => True
  | resolve _ => True
  | close => True

instance Fits.decidable (s : Symbols) : (c : Change) → Decidable (c.Fits s)
  | addSupertype .. => inferInstanceAs (Decidable (_ ∧ _))
  | declareUnion members => inferInstanceAs (Decidable (∀ m ∈ members, m < _))
  | declareConstant .. => inferInstanceAs (Decidable (_ < _))
  | declarePredicate _ signature => inferInstanceAs (Decidable (∀ t ∈ signature, t < _))
  | declareTask _ signature => inferInstanceAs (Decidable (∀ t ∈ signature.parameters, t < _))
  | declareType _ => isTrue trivial
  | resolve _ => isTrue trivial
  | close => isTrue trivial

def apply (s : Symbols) : Change → Symbols
  | declareType name => (s.declareType name).2
  | addSupertype sub sup => s.addSupertype sub sup
  | declareUnion members => (s.declareUnion members).2
  | resolve ref => s.after (s.resolve ref)
  | declareConstant name type => s.after (s.declareConstant name type)
  | declarePredicate name signature => s.after (s.declarePredicate name signature)
  | declareTask name signature => s.after (s.declareTask name signature)
  | close => s.close

def names : Change → List String
  | declareType name => [name]
  | _ => []

def links : Change → List (Nat × Nat)
  | addSupertype sub sup => [(sub, sup)]
  | _ => []

/-- The types that a union is declared for. -/
def members (s : Symbols) : Change → List Nat
  | declareUnion members => s.unionMembers members
  | resolve ref => s.unionMembers (ref.names.filterMap s.typeId?)
  | _ => []

/-- A union is declared where the operation is one on unions, and there is a new type after it. -/
def unions (s : Symbols) (c : Change) : List (Nat × List Nat) :=
  match c with
  | declareType _ => []
  | _ => if (c.apply s).types.length = s.types.length then [] else [(s.types.length, c.members s)]

end Change

/-- The symbols, with the names that types were declared by, the types that were linked to supertypes, and the
unions that were declared, each with its members. -/
structure History where
  symbols : Symbols := {}
  names : List String := ["object"]
  links : List (Nat × Nat) := []
  unions : List (Nat × List Nat) := []

namespace History

variable {h : History} {c : Change} {changes : List Change} {a b t : Nat}

def step (h : History) (c : Change) : History where
  symbols := c.apply h.symbols
  names := c.names ++ h.names
  links := c.links ++ h.links
  unions := c.unions h.symbols ++ h.unions

def run (h : History) (changes : List Change) : History := changes.foldl step h

/-- Each operation mentions types that are there by then. -/
def Fits : History → List Change → Prop
  | _, [] => True
  | h, c :: changes => c.Fits h.symbols ∧ (h.step c).Fits changes

instance Fits.decidable : (h : History) → (changes : List Change) → Decidable (h.Fits changes)
  | _, [] => isTrue trivial
  | h, c :: changes =>
    have := Fits.decidable (h.step c) changes
    inferInstanceAs (Decidable (_ ∧ _))

/-- One type was linked to the other, or the other is a union that was declared for it. -/
def Declared (h : History) (a b : Nat) : Prop :=
  (a, b) ∈ h.links ∨ ∃ members, (b, members) ∈ h.unions ∧ a ∈ members

theorem run_induction {P : History → Prop} (hstep : ∀ h c, P h → c.Fits h.symbols → P (h.step c)) (hstart : P h)
    (hfits : h.Fits changes) : P (h.run changes) := by
  induction changes generalizing h with
  | nil => exact hstart
  | cons c changes ih => exact ih (hstep h c hstart hfits.1) hfits.2

/-- What is declared is what the tables of types hold. -/
structure Sound (h : History) : Prop where
  distinct : h.symbols.typeNames.Nodup
  object : h.symbols.typeNames[objectType]? = some "object"
  named : ∀ t name, h.symbols.typeNames[t]? = some name → name ∈ h.names ∨ ∃ members, (t, members) ∈ h.unions
  links : ∀ l ∈ h.links, l.1 < h.symbols.types.length ∧ l.2 < h.symbols.types.length
  unions : ∀ u ∈ h.unions, (∀ m ∈ u.2, m < h.symbols.types.length) ∧
    h.symbols.typeNames[u.1]? = some (h.symbols.unionName u.2)
  supertypes : ∀ a b, b ∈ h.symbols.supertypes a ↔
    a < h.symbols.types.length ∧ a ≠ b ∧ (b = objectType ∨ h.Declared a b)

theorem sound_start : Sound {} := by
  refine ⟨by decide, rfl, fun t name hname => Or.inl ?_, by simp, by simp, fun a b => ?_⟩
  · exact List.mem_of_getElem? hname
  · have hnone : (({} : History).symbols.supertypes a) = [] := by
      cases a <;> rfl
    have hlength : ({} : History).symbols.types.length = 1 := rfl
    rw [hnone, hlength]
    simp [Declared, objectType]
    omega

theorem Sound.object_lt (hs : h.Sound) : objectType < h.symbols.types.length := by
  rw [← length_typeNames]
  exact (List.getElem?_eq_some_iff.mp hs.object).1

theorem Sound.member_lt (hs : h.Sound) (hab : h.Declared a b) :
    a < h.symbols.types.length ∧ b < h.symbols.types.length := by
  rcases hab with hlink | ⟨members, hunion, ha⟩
  · exact hs.links _ hlink
  · obtain ⟨hmembers, hname⟩ := hs.unions _ hunion
    have hb := (List.getElem?_eq_some_iff.mp hname).1
    rw [length_typeNames] at hb
    exact ⟨hmembers a ha, hb⟩

/-- What a step has to say of the types and declarations that it adds. -/
theorem Sound.extend (hs : h.Sound) {h' : History} {later : List String}
    (hnames : h'.symbols.typeNames = h.symbols.typeNames ++ later)
    (hdistinct : (h.symbols.typeNames ++ later).Nodup) (hkept : h.names ⊆ h'.names) (hunited : h.unions ⊆ h'.unions)
    (hnamed : ∀ i name, later[i]? = some name →
      name ∈ h'.names ∨ ∃ members, (h.symbols.types.length + i, members) ∈ h'.unions)
    (hlinks : ∀ l ∈ h'.links, l ∈ h.links ∨ l.1 < h.symbols.types.length ∧ l.2 < h.symbols.types.length)
    (hunions : ∀ u ∈ h'.unions, u ∈ h.unions ∨ (∀ m ∈ u.2, m < h.symbols.types.length) ∧
      h'.symbols.typeNames[u.1]? = some (h.symbols.unionName u.2))
    (hsupertypes : ∀ a b, b ∈ h'.symbols.supertypes a ↔
      a < h'.symbols.types.length ∧ a ≠ b ∧ (b = objectType ∨ h'.Declared a b)) : h'.Sound := by
  have hlength : h.symbols.types.length ≤ h'.symbols.types.length := by
    rw [length_types_of_append hnames]
    exact Nat.le_add_right _ _
  have hold : ∀ (t : Nat) name, h.symbols.typeNames[t]? = some name → h'.symbols.typeNames[t]? = some name := by
    intro t name hname
    rwa [hnames, List.getElem?_append_left (List.getElem?_eq_some_iff.mp hname).1]
  refine ⟨hnames ▸ hdistinct, hold _ _ hs.object, fun t name hname => ?_, fun l hl => ?_, fun u hu => ?_,
    hsupertypes⟩
  · rw [hnames] at hname
    rcases Nat.lt_or_ge t h.symbols.typeNames.length with ht | ht
    · rw [List.getElem?_append_left ht] at hname
      exact (hs.named t name hname).imp (@hkept name) fun ⟨members, hmem⟩ => ⟨members, hunited hmem⟩
    · rw [List.getElem?_append_right ht] at hname
      have hnew := hnamed _ name hname
      rw [length_typeNames] at hnew ht
      rwa [Nat.add_sub_cancel' ht] at hnew
  · have hin := (hlinks l hl).elim (hs.links l) id
    exact ⟨hin.1.trans_le hlength, hin.2.trans_le hlength⟩
  · have hin : (∀ m ∈ u.2, m < h.symbols.types.length) ∧
        h'.symbols.typeNames[u.1]? = some (h.symbols.unionName u.2) :=
      (hunions u hu).elim (fun hu => ⟨(hs.unions u hu).1, hold _ _ (hs.unions u hu).2⟩) id
    exact ⟨fun m hm => (hin.1 m hm).trans_le hlength, by rw [hin.2, unionName_eq hnames hin.1]⟩

theorem Sound.of_sameTypes (hs : h.Sound) {s : Symbols} (hsame : h.symbols.SameTypes s) :
    Sound { h with symbols := s } := by
  refine hs.extend (hsame.names.trans (List.append_nil _).symm) (by simpa using hs.distinct) (List.Subset.refl _)
    (List.Subset.refl _) (by simp) (fun l hl => Or.inl hl) (fun u hu => Or.inl hu) fun a b => ?_
  dsimp only
  rw [hsame.length, hsame.supertypes]
  exact hs.supertypes a b

/-- The supertypes after one type was added, above the types `ts`. -/
theorem Sound.supertypes_addType (hs : h.Sound) {h' : History} {ts : List Nat}
    (hlength : h'.symbols.types.length = h.symbols.types.length + 1)
    (hmembers : ∀ m ∈ ts, m < h.symbols.types.length)
    (hsupertypes : ∀ a b, b ∈ h'.symbols.supertypes a ↔ b ∈ h.symbols.supertypes a ∨
      a = h.symbols.types.length ∧ b = objectType ∨ a ∈ ts ∧ b = h.symbols.types.length)
    (hdeclared : ∀ a b, h'.Declared a b ↔ h.Declared a b ∨ a ∈ ts ∧ b = h.symbols.types.length) (a b : Nat) :
    b ∈ h'.symbols.supertypes a ↔
      a < h'.symbols.types.length ∧ a ≠ b ∧ (b = objectType ∨ h'.Declared a b) := by
  rw [hsupertypes, hs.supertypes, hdeclared, hlength]
  constructor
  · rintro (⟨ha, hne, hb⟩ | ⟨rfl, rfl⟩ | ⟨ha, rfl⟩)
    · exact ⟨by omega, hne, hb.imp_right Or.inl⟩
    · exact ⟨by omega, hs.object_lt.ne', Or.inl rfl⟩
    · exact ⟨by have hlt := hmembers a ha; omega, (hmembers a ha).ne, Or.inr (Or.inr ⟨ha, rfl⟩)⟩
  · rintro ⟨ha, hne, hb⟩
    rcases Nat.lt_or_eq_of_le (Nat.le_of_lt_succ ha) with ha | rfl
    · rcases hb with hb | hb | hb
      · exact Or.inl ⟨ha, hne, Or.inl hb⟩
      · exact Or.inl ⟨ha, hne, Or.inr hb⟩
      · exact Or.inr (Or.inr hb)
    · rcases hb with hb | hb | ⟨hb, -⟩
      · exact Or.inr (Or.inl ⟨rfl, hb⟩)
      · exact absurd (hs.member_lt hb).1 (Nat.lt_irrefl _)
      · exact absurd (hmembers _ hb) (Nat.lt_irrefl _)

theorem Sound.nodup_append (hs : h.Sound) {name : String} (hid : h.symbols.typeId? name = none) :
    (h.symbols.typeNames ++ [name]).Nodup :=
  hs.distinct.append (List.nodup_singleton name)
    (List.disjoint_singleton.mpr (not_mem_typeNames_of_typeId? hid))

theorem Sound.declareType (hs : h.Sound) (name : String) : (h.step (.declareType name)).Sound := by
  cases hid : h.symbols.typeId? name with
  | some t =>
      have hstep : h.step (.declareType name) = { h with names := name :: h.names } := by
        simp [step, Change.apply, Change.names, Change.links, Change.unions, declareType_known hid]
      rw [hstep]
      exact ⟨hs.distinct, hs.object, fun t n hn => (hs.named t n hn).imp_left (List.mem_cons_of_mem name), hs.links,
        hs.unions, hs.supertypes⟩
  | none =>
      obtain ⟨-, hnames, hsupertypes⟩ := declareType_new hid
      have hlength : (h.step (.declareType name)).symbols.types.length = h.symbols.types.length + 1 :=
        length_types_of_append hnames
      have hdeclared : ∀ a b, (h.step (.declareType name)).Declared a b ↔
          h.Declared a b ∨ a ∈ ([] : List Nat) ∧ b = h.symbols.types.length := by
        simp [Declared, step, Change.links, Change.unions]
      refine hs.extend hnames (hs.nodup_append hid) (List.subset_cons_self _ _) (List.Subset.refl _) ?_
        (fun l hl => Or.inl hl) (fun u hu => Or.inl hu)
        (hs.supertypes_addType hlength (by simp) (by simpa [step, Change.apply] using hsupertypes) hdeclared)
      intro i n hn
      obtain rfl := List.mem_singleton.mp (List.mem_of_getElem? hn)
      exact Or.inl List.mem_cons_self

theorem Sound.addSupertype (hs : h.Sound) {sub sup : Nat} (hfits : (Change.addSupertype sub sup).Fits h.symbols) :
    (h.step (.addSupertype sub sup)).Sound := by
  obtain ⟨hnames, hsupertypes⟩ := addSupertype_spec sub sup h.symbols
  have hlength : (h.symbols.addSupertype sub sup).types.length = h.symbols.types.length :=
    length_types_of_append (hnames.trans (List.append_nil _).symm)
  have hunions : (h.step (.addSupertype sub sup)).unions = h.unions := by
    simp [step, Change.unions, Change.apply, hlength]
  have hdeclared : ∀ a b, (h.step (.addSupertype sub sup)).Declared a b ↔
      h.Declared a b ∨ a = sub ∧ b = sup := by
    intro a b
    rw [Declared, hunions, Declared]
    simp only [step, Change.links, List.singleton_append, List.mem_cons, Prod.mk.injEq]
    rw [or_assoc, or_comm]
  refine hs.extend (hnames.trans (List.append_nil _).symm) (by simpa using hs.distinct) (List.Subset.refl _)
    (hunions ▸ List.Subset.refl _) (by simp) (fun l hl => ?_) (fun u hu => Or.inl (hunions ▸ hu)) fun a b => ?_
  · rcases List.mem_cons.mp hl with rfl | hl
    · exact Or.inr hfits
    · exact Or.inl hl
  · have hlt : a = sub → a < h.symbols.types.length := fun ha => ha ▸ hfits.1
    have hold := hs.supertypes a b
    have hnew := hsupertypes a b
    rw [hdeclared]
    simp only [step, Change.apply, hlength]
    grind

/-- One more union, of the types `ts`. -/
theorem Sound.addUnion (hs : h.Sound) {ts : List Nat} {s : Symbols} (hmembers : ∀ m ∈ ts, m < h.symbols.types.length)
    (hid : h.symbols.typeId? (h.symbols.unionName ts) = none)
    (hnames : s.typeNames = h.symbols.typeNames ++ [h.symbols.unionName ts])
    (hsupertypes : ∀ a b, b ∈ s.supertypes a ↔ b ∈ h.symbols.supertypes a ∨
      a = h.symbols.types.length ∧ b = objectType ∨ a ∈ ts ∧ b = h.symbols.types.length) :
    Sound { h with symbols := s, unions := (h.symbols.types.length, ts) :: h.unions } := by
  have hlength : s.types.length = h.symbols.types.length + 1 := length_types_of_append hnames
  refine hs.extend hnames (hs.nodup_append hid) (List.Subset.refl _) (List.subset_cons_self _ _) (fun i n hn => ?_)
    (fun l hl => Or.inl hl) (fun u hu => ?_) (hs.supertypes_addType hlength hmembers hsupertypes fun a b => ?_)
  · have hi : i < [h.symbols.unionName ts].length := (List.getElem?_eq_some_iff.mp hn).1
    obtain rfl : i = 0 := by simpa using hi
    exact Or.inr ⟨ts, List.mem_cons_self⟩
  · rcases List.mem_cons.mp hu with rfl | hu
    · refine Or.inr ⟨hmembers, ?_⟩
      dsimp only
      rw [hnames, ← length_typeNames, List.getElem?_concat_length]
    · exact Or.inl hu
  · simp only [Declared, List.mem_cons, Prod.mk.injEq]
    grind

/-- An operation on unions declares a union of the members, or it finds a type for them. -/
theorem Sound.of_declareUnion (hs : h.Sound) (hnames : c.names = []) (hlinks : c.links = [])
    {members : List Nat} (happly : c.apply h.symbols = (h.symbols.declareUnion members).2)
    (hunions : c.unions h.symbols = if (c.apply h.symbols).types.length = h.symbols.types.length then []
      else [(h.symbols.types.length, h.symbols.unionMembers members)]) : (h.step c).Sound := by
  rcases declareUnion_cases members h.symbols with ⟨t, hdeclare, -⟩ | ⟨-, hid, -, hdeclared, hsupertypes⟩
  · have hsame : c.apply h.symbols = h.symbols := by rw [happly, hdeclare]
    have hstep : h.step c = h := by simp [step, hnames, hlinks, hunions, hsame]
    rwa [hstep]
  · have hgrown : (h.symbols.declareUnion members).2.types.length ≠ h.symbols.types.length := by
      rw [length_types_of_append hdeclared]
      simp
    have hstep : h.step c = { h with
        symbols := (h.symbols.declareUnion members).2
        unions := (h.symbols.types.length, h.symbols.unionMembers members) :: h.unions } := by
      simp [step, hnames, hlinks, hunions, happly, hgrown]
    rw [hstep]
    exact hs.addUnion (fun m hm => (lt_of_mem_unionMembers hm).1) hid hdeclared hsupertypes

theorem Sound.of_same (hs : h.Sound) (hnames : c.names = []) (hlinks : c.links = [])
    (hsame : h.symbols.SameTypes (c.apply h.symbols)) : (h.step c).Sound := by
  have hunions : c.unions h.symbols = [] := by
    cases c <;> simp [Change.unions, hsame.length]
  have hstep : h.step c = { h with symbols := c.apply h.symbols } := by simp [step, hnames, hlinks, hunions]
  rw [hstep]
  exact hs.of_sameTypes hsame

theorem Sound.step (hs : h.Sound) (hfits : c.Fits h.symbols) : (h.step c).Sound := by
  cases c with
  | declareType name => exact hs.declareType name
  | addSupertype sub sup => exact hs.addSupertype hfits
  | declareUnion members => exact hs.of_declareUnion rfl rfl rfl rfl
  | resolve ref =>
      cases hr : h.symbols.resolve ref with
      | error e => exact hs.of_same rfl rfl (by rw [Change.apply, hr]; exact .refl _)
      | ok r =>
          rcases resolve_cases hr with hsame | hunion
          · exact hs.of_same rfl rfl (by rw [Change.apply, hr, after, hsame]; exact .refl _)
          · exact hs.of_declareUnion rfl rfl (by rw [Change.apply, hr, after, hunion]) rfl
  | declareConstant name type =>
      exact hs.of_same rfl rfl (after_induction (.refl _) fun _ _ => sameTypes_declareConstant)
  | declarePredicate name signature =>
      exact hs.of_same rfl rfl (after_induction (.refl _) fun _ _ => sameTypes_declarePredicate)
  | declareTask name signature =>
      exact hs.of_same rfl rfl (after_induction (.refl _) fun _ _ => sameTypes_declareTask)
  | close => exact hs.of_same rfl rfl (sameTypes_close _)

theorem Sound.run (hs : h.Sound) (hfits : h.Fits changes) : (h.run changes).Sound :=
  run_induction (fun _ _ hs hfits => hs.step hfits) hs hfits

/-! ### Subtypes and domains -/

theorem Sound.lt_of_below (hs : h.Sound) (ha : a < h.symbols.types.length) (hab : h.symbols.Below a b) :
    b < h.symbols.types.length := by
  rcases ReflTransGen.cases_tail hab with rfl | ⟨c, -, hcb⟩
  · exact ha
  · obtain ⟨-, -, rfl | hdeclared⟩ := (hs.supertypes c b).mp hcb
    · exact hs.object_lt
    · exact (hs.member_lt hdeclared).2

theorem Sound.below_iff (hs : h.Sound) (ha : a < h.symbols.types.length) :
    h.symbols.Below a b ↔ ReflTransGen (fun a b => b = objectType ∨ h.Declared a b) a b := by
  constructor
  · exact ReflTransGen.mono (fun a b hab => ((hs.supertypes a b).mp hab).2.2) a b
  · intro hab
    induction hab with
    | refl => exact .refl
    | @tail b c _ hbc ih =>
        by_cases hne : b = c
        · exact hne ▸ ih
        · exact ih.tail ((hs.supertypes b c).mpr ⟨hs.lt_of_below ha ih, hne, hbc⟩)

theorem settled_apply {s : Symbols} (hs : s.Settled) (c : Change) : (c.apply s).Settled := by
  cases c with
  | declareType name => exact (follows_declareType name s).1.settled hs
  | addSupertype sub sup => exact (follows_addSupertype sub sup s).settled hs
  | declareUnion members => exact (follows_declareUnion members s).1.settled hs
  | resolve ref => exact after_induction hs fun _ _ hr => (follows_resolve hr).1.settled hs
  | declareConstant name type => exact after_induction hs fun _ _ => hs.declareConstant
  | declarePredicate name signature => exact after_induction hs fun _ _ => hs.declarePredicate
  | declareTask name signature => exact after_induction hs fun _ _ => hs.declareTask
  | close => exact settled_close hs.nonempty

/-- The domains are right from the time that they are first filled in. -/
theorem Sound.settled_run (hs : h.Sound) (hfits : h.Fits changes)
    (hclose : h.symbols.Settled ∨ Change.close ∈ changes) : (h.run changes).symbols.Settled := by
  induction changes generalizing h with
  | nil => exact hclose.resolve_right List.not_mem_nil
  | cons c changes ih =>
      refine ih (hs.step hfits.1) hfits.2 ?_
      rcases hclose with hsettled | hclose
      · exact Or.inl (settled_apply hsettled c)
      · rcases List.mem_cons.mp hclose with rfl | hclose
        · exact Or.inl (settled_close hs.object_lt)
        · exact Or.inr hclose

end History

/-- After any operations, the subtypes of a type are those that were declared, at once or by way of others, and
every type is a subtype of `object`. The walk that looks for a type comes to an end and finds these, and so does
the walk that fills in the domains. Once it has done so, the domains have the constants of each type ever after. -/
theorem domains_follow_declared_types (changes : List Change) (hfits : History.Fits {} changes) :
    let h := History.run {} changes
    (∀ a b, a < h.symbols.types.length → (h.symbols.isSubtype a b = true ↔
      ReflTransGen (fun a b => b = objectType ∨ h.Declared a b) a b)) ∧
    (∀ a < h.symbols.types.length, h.symbols.isSubtype a objectType = true) ∧
    (∀ a b, h.symbols.climbsTo b [a] [] = h.symbols.isSubtype a b) ∧
    (∀ t < h.symbols.types.length, ∀ c, c ∈ h.symbols.close.domain t ↔
      ∃ u, h.symbols.constants.definition? c = some u ∧ t ∈ h.symbols.climb [u] []) ∧
    (Change.close ∈ changes → ∀ t < h.symbols.types.length, ∀ c,
      c ∈ h.symbols.domain t ↔ h.symbols.isOfType c t = true) := by
  intro h
  have hsound : h.Sound := History.sound_start.run hfits
  have hbelow : ∀ a b, a < h.symbols.types.length → (h.symbols.isSubtype a b = true ↔
      ReflTransGen (fun a b => b = objectType ∨ h.Declared a b) a b) := by
    intro a b ha
    rw [isSubtype_iff, hsound.below_iff ha]
  refine ⟨hbelow, fun a ha => (hbelow a objectType ha).mpr (.single (Or.inl rfl)),
    climbsTo_eq_isSubtype h.symbols, fun t ht c => mem_domain_close_iff_climb ht, fun hclose => ?_⟩
  exact (History.sound_start.settled_run hfits (Or.inr hclose)).domains

/-- Two types are below each other, and a union comes up after the domains are in use. -/
def cyclicChanges : List Change :=
  [.declareType "crate", .declareType "box", .declareType "truck", .addSupertype 1 2, .addSupertype 2 1,
    .declareConstant "b" 2, .close, .resolve (.eitherOf ["crate", "truck"]), .declareConstant "t" 3]

theorem domains_follow_declared_types_cyclic : History.Fits {} cyclicChanges ∧ Change.close ∈ cyclicChanges ∧
    let s := (History.run {} cyclicChanges).symbols
    s.types.length = 5 ∧ s.climbsTo 1 [2] [] = true ∧ s.climbsTo 4 [2] [] = true ∧ s.domain 4 = [0, 1] ∧
      s.isOfType 1 4 = true := by
  have hfits : History.Fits {} cyclicChanges := by decide +kernel
  have hclose : Change.close ∈ cyclicChanges := by decide
  obtain ⟨-, -, hclimb, -, hdomain⟩ := domains_follow_declared_types cyclicChanges hfits
  have hlength : (History.run {} cyclicChanges).symbols.types.length = 5 := by decide +kernel
  have hunion : (History.run {} cyclicChanges).symbols.domain 4 = [0, 1] := by decide +kernel
  refine ⟨hfits, hclose, hlength, ?_, ?_, hunion, (hdomain hclose 4 (by omega) 1).mp (by simp [hunion])⟩
  · rw [hclimb]
    decide +kernel
  · rw [hclimb]
    decide +kernel

end HtnPlanner.Symbols
