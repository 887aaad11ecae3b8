import HtnPlanner.Json.Decoder
import Mathlib.Data.List.Forall2
import Mathlib.Data.List.Perm.Basic

/-!
How values may be spelled as JSON, and that a decoder reads every spelling of a value back to the value. It does so
exactly if the document is not nested deeper than the levels allow.
-/

namespace HtnPlanner

/-! ### Nesting -/

namespace Json

mutual

/-- How many arrays and objects are open one inside the other where the document is deepest. -/
def depth : Json → Nat
  | .array items => itemsDepth items + 1
  | .object fields => fieldsDepth fields + 1
  | _ => 0

def itemsDepth : List Json → Nat
  | [] => 0
  | j :: js => max j.depth (itemsDepth js)

def fieldsDepth : List (Option String × Json) → Nat
  | [] => 0
  | (_, j) :: fields => max j.depth (fieldsDepth fields)

end

variable {n : Nat} {j : Json} {items : List Json} {fields : List (Option String × Json)}

theorem itemsDepth_le_iff : itemsDepth items ≤ n ↔ ∀ j ∈ items, j.depth ≤ n := by
  induction items with
  | nil => simp [itemsDepth]
  | cons j js ih => rw [itemsDepth, Nat.max_le, ih, List.forall_mem_cons]

theorem fieldsDepth_le_iff : fieldsDepth fields ≤ n ↔ ∀ f ∈ fields, f.2.depth ≤ n := by
  induction fields with
  | nil => simp [fieldsDepth]
  | cons f fields ih =>
      obtain ⟨name, j⟩ := f
      rw [fieldsDepth, Nat.max_le, ih, List.forall_mem_cons]

theorem depth_array_le_iff : (Json.array items).depth ≤ n + 1 ↔ ∀ j ∈ items, j.depth ≤ n := by
  rw [depth, Nat.add_le_add_iff_right, itemsDepth_le_iff]

theorem depth_object_le_iff : (Json.object fields).depth ≤ n + 1 ↔ ∀ f ∈ fields, f.2.depth ≤ n := by
  rw [depth, Nat.add_le_add_iff_right, fieldsDepth_le_iff]

theorem depth_tagged_le_iff {tag : String} : (tagged tag j).depth ≤ n + 1 ↔ j.depth ≤ n := by
  rw [tagged, depth_object_le_iff, List.forall_mem_singleton]

end Json

/-! ### Spellings -/

/-- Which documents stand for a value. -/
abbrev Spelling (α : Type) := α → Json → Prop

namespace Spelling

variable {α β : Type}

def string : Spelling String := fun s j => j = .ofString s

def nullable (S : Spelling α) : Spelling (Option α)
  | none, j => j = .null
  | some v, j => S v j

def list (S : Spelling α) : Spelling (List α) := fun l j => ∃ items, j = .array items ∧ List.Forall₂ S l items

def pair (S : Spelling α) (T : Spelling β) : Spelling (α × β) :=
  fun p j => ∃ a b, j = .array [a, b] ∧ S p.1 a ∧ T p.2 b

def tagged (tag : String) (S : Spelling α) : Spelling α := fun v j => ∃ content, j = .tagged tag content ∧ S v content

/-- The fields that are given, in the order of their names. -/
def given : List String → List (Option Json) → List (Option String × Json)
  | name :: names, some j :: slots => (some name, j) :: given names slots
  | _ :: names, none :: slots => given names slots
  | _, _ => []

/-- A record is an object, in which the order of the fields does not matter and some may be missing, or an array, where
only the last ones can be missing. -/
inductive HasSlots (names : List String) : List (Option Json) → Json → Prop
  | object {slots : List (Option Json)} {fields : List (Option String × Json)}
    (hlength : slots.length = names.length) (hfields : fields.Perm (given names slots)) :
    HasSlots names slots (.object fields)
  | array {items : List Json} {missing : Nat} (hlength : items.length + missing = names.length) :
    HasSlots names (items.map some ++ List.replicate missing none) (.array items)

/-- A field that is there. -/
def required (S : Spelling α) (v : α) (slot : Option Json) : Prop := ∃ j, slot = some j ∧ S v j

/-- A field that may be missing where it has its default. -/
def optional (S : Spelling α) (default v : α) (slot : Option Json) : Prop :=
  slot = none ∧ v = default ∨ required S v slot

variable {S : Spelling α} {default v : α} {j : Json}

theorem string_ofString (s : String) : string s (.ofString s) := rfl

theorem required_some (h : S v j) : required S v (some j) := ⟨j, rfl, h⟩

theorem optional_some (h : S v j) : optional S default v (some j) := .inr (required_some h)

theorem list_map {write : α → Json} {l : List α} (h : ∀ v ∈ l, S v (write v)) : list S l (.list write l) :=
  ⟨l.map write, rfl, List.forall₂_map_right_iff.mpr (List.forall₂_same.mpr h)⟩

theorem given_of_map_some (fields : List (String × Json)) :
    given (fields.map (·.1)) (fields.map fun f => some f.2) = fields.map fun f => (some f.1, f.2) := by
  induction fields with
  | nil => rfl
  | cons f fields ih => exact congrArg ((some f.1, f.2) :: ·) ih

/-- An object with all fields, in the order of their names. -/
theorem hasSlots_record (fields : List (String × Json)) :
    HasSlots (fields.map (·.1)) (fields.map fun f => some f.2) (.record fields) :=
  .object (by simp) (.of_eq (given_of_map_some fields).symm)

end Spelling

/-! ### Decoders that read spellings -/

namespace Decoder

open Spelling

variable {α β : Type} {d : Decoder α} {e : Decoder β} {S : Spelling α} {T : Spelling β}

/-- The document is read as the value, if it is not nested deeper than the levels allow, and else it is refused. -/
def Gives (d : Decoder α) (j : Json) (v : α) : Prop := ∀ n, d n j = if j.depth ≤ n then some v else none

/-- Every spelling of a value is read back. -/
def Reads (d : Decoder α) (S : Spelling α) : Prop := ∀ v j, S v j → d.Gives j v

@[simp] theorem bind_ite {c : Prop} [Decidable c] {a : α} {f : α → Option β} :
    ((if c then some a else none) >>= f) = if c then f a else none := by
  split <;> rfl

theorem map_ite {c : Prop} [Decidable c] {a : α} {f : α → β} :
    (if c then some a else none).map f = if c then some (f a) else none := by
  split <;> rfl

/-- The members of a list are read one after the other, and all of them or none. -/
theorem mapM_ite {p : Json → Prop} [DecidablePred p] {f : Json → Option α} {l : List α} {items : List Json}
    (h : List.Forall₂ (fun v j => f j = if p j then some v else none) l items) :
    items.mapM f = if ∀ j ∈ items, p j then some l else none := by
  induction h with
  | nil => simp
  | cons hf _ ih =>
      rw [List.mapM_cons, hf, bind_ite, ih, bind_ite, ← ite_and]
      simp only [List.forall_mem_cons]
      rfl

theorem Gives.map {j : Json} {v : α} (h : d.Gives j v) (f : α → β) : Gives (fun n j => (d n j).map f) j (f v) :=
  fun n => (congrArg (Option.map f) (h n)).trans map_ite

theorem Gives.list {l : List α} {items : List Json} (h : List.Forall₂ (fun v j => d.Gives j v) l items) :
    (list d).Gives (.array items) l := by
  intro n
  cases n with
  | zero => rw [if_neg (by simp [Json.depth])]; rfl
  | succ n =>
      simp only [Json.depth_array_le_iff]
      exact mapM_ite (h.imp fun v j hj => hj n)

theorem Gives.pair {a b : Json} {v : α} {w : β} (h : d.Gives a v) (h' : e.Gives b w) :
    (pair d e).Gives (.array [a, b]) (v, w) := by
  intro n
  cases n with
  | zero => rw [if_neg (by simp [Json.depth])]; rfl
  | succ n =>
      change (d n a >>= fun a => e n b >>= fun b => some (a, b)) = _
      rw [h n, h' n, bind_ite, bind_ite, ← ite_and]
      simp only [Json.depth_array_le_iff, List.forall_mem_cons, List.not_mem_nil, false_implies, implies_true, and_true]

theorem Gives.tagged {content : String → Decoder α} {tag : String} {j : Json} {v : α} (h : (content tag).Gives j v) :
    (tagged content).Gives (.tagged tag j) v := by
  intro n
  cases n with
  | zero => rw [if_neg (by simp [Json.tagged, Json.depth])]; rfl
  | succ n =>
      simp only [Json.depth_tagged_le_iff]
      exact h n

theorem reads_string : string.Reads Spelling.string := by
  rintro s j rfl n
  exact (if_pos (Nat.zero_le n)).symm

theorem Reads.list (h : d.Reads S) : (list d).Reads (Spelling.list S) := by
  rintro l j ⟨items, rfl, hitems⟩
  exact .list (hitems.imp h)

theorem Reads.pair (h : d.Reads S) (h' : e.Reads T) : (pair d e).Reads (Spelling.pair S T) := by
  rintro ⟨v, w⟩ j ⟨a, b, rfl, ha, hb⟩
  exact .pair (h v a ha) (h' w b hb)

theorem Reads.nullable (h : d.Reads S) (hnull : ∀ v, ¬S v .null) : (nullable d).Reads (Spelling.nullable S) := by
  intro v j hj n
  cases v with
  | none =>
      obtain rfl : j = .null := hj
      exact (if_pos (Nat.zero_le n)).symm
  | some v =>
      have hread : d.nullable n j = (d n j).map some := by
        cases j with
        | null => exact absurd hj (hnull v)
        | _ => rfl
      rw [hread, h v j hj n, map_ite]

/-! ### Records -/

theorem field?_perm {fields fields' : List (Option String × Json)} (h : fields.Perm fields') (name : String) :
    field? fields name = field? fields' name := by
  have hfilter := h.filter (·.1 == some name)
  rw [field?, field?]
  generalize fields.filter (·.1 == some name) = l at hfilter
  generalize fields'.filter (·.1 == some name) = l' at hfilter
  have hlength := hfilter.length_eq
  match l, l' with
  | [], l' => rw [hfilter.nil_eq]
  | [f], l' => rw [List.singleton_perm.mp hfilter]
  | _ :: _ :: _, [] => simp at hlength
  | _ :: _ :: _, [_] => simp at hlength
  | _ :: _ :: _, _ :: _ :: _ => rfl

theorem field?_cons_self {fields : List (Option String × Json)} {name : String} {j : Json}
    (h : ∀ f ∈ fields, f.1 ≠ some name) : field? ((some name, j) :: fields) name = some (some j) := by
  have hfilter : fields.filter (·.1 == some name) = [] :=
    List.filter_eq_nil_iff.mpr fun f hf hname => h f hf (eq_of_beq hname)
  rw [field?, List.filter_cons_of_pos (by simp), hfilter]

theorem field?_cons_of_ne {fields : List (Option String × Json)} {name : String} {f : Option String × Json}
    (h : f.1 ≠ some name) : field? (f :: fields) name = field? fields name := by
  rw [field?, field?, List.filter_cons_of_neg (by simpa using h)]

theorem field?_eq_none {fields : List (Option String × Json)} {name : String} (h : ∀ f ∈ fields, f.1 ≠ some name) :
    field? fields name = some none := by
  have hfilter : fields.filter (·.1 == some name) = [] :=
    List.filter_eq_nil_iff.mpr fun f hf hname => h f hf (eq_of_beq hname)
  rw [field?, hfilter]

theorem exists_of_mem_given {names : List String} {slots : List (Option Json)} {f : Option String × Json}
    (h : f ∈ given names slots) : (∃ name ∈ names, f.1 = some name) ∧ some f.2 ∈ slots := by
  induction names generalizing slots with
  | nil => cases h
  | cons name names ih =>
      match slots with
      | [] => cases h
      | none :: slots =>
          obtain ⟨⟨n, hn, hname⟩, hslot⟩ := ih h
          exact ⟨⟨n, List.mem_cons_of_mem _ hn, hname⟩, List.mem_cons_of_mem _ hslot⟩
      | some j :: slots =>
          rcases List.mem_cons.mp h with rfl | h
          · exact ⟨⟨name, List.mem_cons_self, rfl⟩, List.mem_cons_self⟩
          · obtain ⟨⟨n, hn, hname⟩, hslot⟩ := ih h
            exact ⟨⟨n, List.mem_cons_of_mem _ hn, hname⟩, List.mem_cons_of_mem _ hslot⟩

theorem mem_given {names : List String} {slots : List (Option Json)} (hlength : slots.length = names.length) {j : Json}
    (hj : some j ∈ slots) : ∃ f ∈ given names slots, f.2 = j := by
  induction names generalizing slots with
  | nil =>
      rw [List.length_eq_zero_iff.mp hlength] at hj
      cases hj
  | cons name names ih =>
      match slots with
      | none :: slots => exact ih (Nat.succ.inj hlength) (by simpa using hj)
      | some i :: slots =>
          rcases List.mem_cons.mp hj with heq | hj
          · obtain rfl := Option.some.inj heq
            exact ⟨_, List.mem_cons_self, rfl⟩
          · obtain ⟨f, hf, heq⟩ := ih (Nat.succ.inj hlength) hj
            exact ⟨f, List.mem_cons_of_mem _ hf, heq⟩

theorem mapM_congr {f g : α → Option β} {l : List α} (h : ∀ a ∈ l, f a = g a) : l.mapM f = l.mapM g := by
  induction l with
  | nil => rfl
  | cons a l ih =>
      obtain ⟨ha, hl⟩ := List.forall_mem_cons.mp h
      rw [List.mapM_cons, List.mapM_cons, ha, ih hl]

theorem mapM_field?_given {names : List String} (hnames : names.Nodup) {slots : List (Option Json)}
    (hlength : slots.length = names.length) : names.mapM (field? (given names slots)) = some slots := by
  induction names generalizing slots with
  | nil => rw [List.length_eq_zero_iff.mp hlength]; rfl
  | cons name names ih =>
      obtain ⟨hname, hnames⟩ := List.nodup_cons.mp hnames
      have hother : ∀ slots, ∀ f ∈ given names slots, f.1 ≠ some name := by
        intro slots f hf heq
        obtain ⟨n, hn, hfn⟩ := (exists_of_mem_given hf).1
        exact hname (Option.some.inj (heq.symm.trans hfn) ▸ hn)
      match slots with
      | none :: slots =>
          have hrest := ih hnames (Nat.succ.inj hlength)
          rw [given, List.mapM_cons, field?_eq_none (hother slots), hrest]
          rfl
      | some j :: slots =>
          have hrest : names.mapM (field? ((some name, j) :: given names slots)) = some slots := by
            rw [← ih hnames (Nat.succ.inj hlength)]
            refine mapM_congr fun n hn => field?_cons_of_ne fun heq => ?_
            exact hname (Option.some.inj heq ▸ hn)
          rw [given, List.mapM_cons, field?_cons_self (hother slots), hrest]
          rfl

theorem slots?_of_hasSlots {names : List String} (hnames : names.Nodup) {slots : List (Option Json)} {j : Json}
    (h : HasSlots names slots j) : slots? names j = some slots := by
  cases h with
  | object hlength hfields =>
      have hsome : (List.all _ fun f : Option String × Json => f.1.isSome) = true := List.all_eq_true.mpr fun f hf => by
        obtain ⟨n, -, hn⟩ := (exists_of_mem_given (hfields.mem_iff.mp hf)).1
        rw [hn, Option.isSome_some]
      rw [slots?, if_pos hsome, mapM_congr fun name _ => field?_perm hfields name]
      exact mapM_field?_given hnames hlength
  | @array items missing hlength =>
      have hmissing : names.length - items.length = missing := by omega
      rw [slots?, if_pos (by omega), hmissing]

/-- The members of a record are one level deeper than the record. -/
theorem depth_hasSlots_le_iff {names : List String} {slots : List (Option Json)} {j : Json} (h : HasSlots names slots j)
    {n : Nat} : j.depth ≤ n + 1 ↔ ∀ c, some c ∈ slots → c.depth ≤ n := by
  cases h with
  | object hlength hfields =>
      rw [Json.depth_object_le_iff]
      constructor
      · intro hdepth c hc
        obtain ⟨f, hf, rfl⟩ := mem_given hlength hc
        exact hdepth f (hfields.mem_iff.mpr hf)
      · intro hdepth f hf
        exact hdepth _ (exists_of_mem_given (hfields.mem_iff.mp hf)).2
  | array hlength => simp [Json.depth_array_le_iff]

theorem hasSlots_depth_pos {names : List String} {slots : List (Option Json)} {j : Json} (h : HasSlots names slots j) :
    0 < j.depth := by
  cases h <;> simp [Json.depth]

/-- How deep what is in the slot is nested. -/
def slotDepth (slot : Option Json) : Nat := slot.elim 0 Json.depth

theorem Reads.required (h : d.Reads S) {v : α} {slot : Option Json} (hslot : Spelling.required S v slot) (n : Nat) :
    required d n slot = if slotDepth slot ≤ n then some v else none := by
  obtain ⟨j, rfl, hj⟩ := hslot
  exact h v j hj n

theorem Reads.optional (h : d.Reads S) {default v : α} {slot : Option Json}
    (hslot : Spelling.optional S default v slot) (n : Nat) :
    optional d default n slot = if slotDepth slot ≤ n then some v else none := by
  rcases hslot with ⟨rfl, rfl⟩ | ⟨j, rfl, hj⟩
  · exact (if_pos (Nat.zero_le n)).symm
  · exact h v j hj n

theorem Gives.record {names : List String} {build : Nat → List (Option Json) → Option α} (hnames : names.Nodup)
    {slots : List (Option Json)} {j : Json} (hj : HasSlots names slots j) {v : α}
    (hbuild : ∀ n, build n slots = if ∀ slot ∈ slots, slotDepth slot ≤ n then some v else none) :
    (record names build).Gives j v := by
  intro n
  cases n with
  | zero =>
      rw [if_neg (Nat.not_le.mpr (hasSlots_depth_pos hj))]
      rfl
  | succ n =>
      have hdepth : (∀ slot ∈ slots, slotDepth slot ≤ n) ↔ j.depth ≤ n + 1 := by
        rw [depth_hasSlots_le_iff hj]
        constructor
        · exact fun h c hc => h (some c) hc
        · rintro h (_ | c) hc
          · exact Nat.zero_le n
          · exact h c hc
      change (slots? names j).bind (build n) = _
      rw [slots?_of_hasSlots hnames hj, Option.bind_some, hbuild]
      exact if_congr hdepth rfl rfl

end Decoder

end HtnPlanner
