import HtnPlanner.Lifted.Naming
import Mathlib.Data.List.Basic

/-!
Work in which every lookup has to find something: there is no result if one does not. `Agrees` relates such
work to the same work with something to fall back on.
-/

namespace HtnPlanner.Lookup

section

variable {α β : Type}

theorem mapM_eq_some {f? : α → Option β} {f : α → β} {l : List α} (h : ∀ a ∈ l, f? a = some (f a)) :
    l.mapM f? = some (l.map f) := by
  induction l with
  | nil => rfl
  | cons a l ih =>
      have hrest := ih fun b hb => h b (List.mem_cons_of_mem a hb)
      simp [List.mapM_cons, h a List.mem_cons_self, hrest]

/-- What every step keeps lets every step find what it needs. -/
theorem foldlM_eq_some {P : β → Prop} {f? : β → α → Option β} {f : β → α → β} {l : List α}
    (h : ∀ a ∈ l, ∀ b, P b → f? b a = some (f b a) ∧ P (f b a)) {b : β} (hb : P b) :
    l.foldlM f? b = some (l.foldl f b) ∧ P (l.foldl f b) := by
  induction l generalizing b with
  | nil => exact ⟨rfl, hb⟩
  | cons a l ih =>
      obtain ⟨hstep, hnext⟩ := h a List.mem_cons_self b hb
      rw [List.foldlM_cons, hstep]
      exact ih (fun c hc => h c (List.mem_cons_of_mem a hc)) hnext

/-- The members for which there is a result, once all were looked at. -/
def choose (f? : α → Option (Option β)) (l : List α) : Option (List β) := (l.mapM f?).map (·.filterMap id)

def gather (f? : α → Option (List β)) (l : List α) : Option (List β) := (l.mapM f?).map List.flatten

def every (p? : α → Option Bool) (l : List α) : Option Bool := (l.mapM p?).map (·.all id)

def keep (p? : α → Option Bool) (l : List α) : Option (List α) :=
  choose (fun a => (p? a).map fun p => if p then some a else none) l

/-- The first member of which it holds. Nothing after it is looked at. -/
def firstOf (p? : α → Option Bool) : List α → Option (Option α)
  | [] => some none
  | a :: l => do if ← p? a then some (some a) else firstOf p? l

theorem choose_eq_some {f? : α → Option (Option β)} {f : α → Option β} {l : List α}
    (h : ∀ a ∈ l, f? a = some (f a)) : choose f? l = some (l.filterMap f) := by
  rw [choose, mapM_eq_some h, Option.map_some, List.filterMap_map]
  rfl

theorem gather_eq_some {f? : α → Option (List β)} {f : α → List β} {l : List α}
    (h : ∀ a ∈ l, f? a = some (f a)) : gather f? l = some (l.flatMap f) := by
  rw [gather, mapM_eq_some h, Option.map_some, List.flatMap]

theorem every_eq_some {p? : α → Option Bool} {p : α → Bool} {l : List α} (h : ∀ a ∈ l, p? a = some (p a)) :
    every p? l = some (l.all p) := by
  rw [every, mapM_eq_some h, Option.map_some, List.all_map]
  rfl

theorem keep_eq_some {p? : α → Option Bool} {p : α → Bool} {l : List α} (h : ∀ a ∈ l, p? a = some (p a)) :
    keep p? l = some (l.filter p) := by
  rw [keep, choose_eq_some (f := Option.guard p) fun a ha => by rw [h a ha]; rfl, List.filterMap_eq_filter]

theorem firstOf_eq_some {p? : α → Option Bool} {p : α → Bool} {l : List α} (h : ∀ a ∈ l, p? a = some (p a)) :
    firstOf p? l = some (l.find? p) := by
  induction l with
  | nil => rfl
  | cons a l ih =>
      rw [firstOf, h a List.mem_cons_self, Option.bind_eq_bind, Option.bind_some,
        ih fun b hb => h b (List.mem_cons_of_mem a hb), List.find?_cons]
      cases p a <;> rfl

/-- Each member is put at the end of the list that its key is the number of. -/
def file (key : α → Nat) (value : α → β) (lists : List (List β)) (l : List α) : Option (List (List β)) :=
  l.foldlM (fun lists a => do some (lists.set (key a) ((← lists[key a]?) ++ [value a]))) lists

theorem file_eq {key : α → Nat} (value : α → β) {lists : List (List β)} {l : List α}
    (h : ∀ a ∈ l, key a < lists.length) :
    file key value lists l = some (lists.mapIdx fun k here => here ++ (l.filter (key · == k)).map value) := by
  induction l generalizing lists with
  | nil => exact congrArg some (List.ext_getElem? fun k => by simp [List.getElem?_mapIdx])
  | cons a l ih =>
      obtain ⟨ha, hl⟩ := List.forall_mem_cons.mp h
      rw [file, List.foldlM_cons, List.getElem?_eq_getElem ha]
      refine (ih (by simpa using hl)).trans (congrArg some (List.ext_getElem? fun k => ?_))
      simp only [List.getElem?_mapIdx, List.getElem?_set, List.filter_cons]
      by_cases hk : key a = k
      · subst hk
        simp [ha]
      · simp [hk]

theorem file_replicate {key : α → Nat} (value : α → β) {n : Nat} {l : List α} (h : ∀ a ∈ l, key a < n) :
    file key value (List.replicate n []) l =
      some ((List.range n).map fun k => (l.filter (key · == k)).map value) := by
  rw [file_eq value (by simpa using h)]
  refine congrArg some (List.ext_getElem? fun k => ?_)
  rw [List.getElem?_mapIdx, List.getElem?_map]
  by_cases hk : k < n <;> simp [hk]

theorem map_some_eq {a? : Option α} (h : a?.isSome) : a?.map some = some a? := by
  obtain ⟨a, rfl⟩ := Option.isSome_iff_exists.mp h
  rfl

end

/-! ### Work that may find the definitions at fault -/

abbrev Work := ExceptT GroundingError Option

def ofExcept {α : Type} (x : Except GroundingError α) : Work α := ExceptT.mk (some x)

/-- All lookups find something. -/
def Finds {α : Type} (x? : Work α) (x : Except GroundingError α) : Prop := x?.run = some x

namespace Finds

variable {α β : Type}

theorem pure (a : α) : Finds (pure a) (pure a) := rfl

theorem ofExcept (x : Except GroundingError α) : Finds (ofExcept x) x := rfl

theorem lift {a? : Option α} {a : α} (h : a? = some a) : Finds (ExceptT.lift a?) (.ok a) := by
  rw [h]
  rfl

theorem throw (e : GroundingError) : Finds (throw e : Work α) (throw e) := rfl

/-- Once a lookup has found something, the rest goes on with it. -/
theorem found {a? : Option α} {a : α} (h : a? = some a) {f? : α → Work β} {x : Except GroundingError β}
    (hx : Finds (f? a) x) : Finds (ExceptT.lift a? >>= f?) x := by
  rw [h]
  exact hx

theorem bind {x? : Work α} {x : Except GroundingError α} (hx : Finds x? x) {f? : α → Work β}
    {f : α → Except GroundingError β} (hf : ∀ a, x = .ok a → Finds (f? a) (f a)) : Finds (x? >>= f?) (x >>= f) := by
  rw [Finds, ExceptT.run_bind, hx]
  cases x with
  | error e => rfl
  | ok a => exact hf a rfl

theorem map {x? : Work α} {x : Except GroundingError α} (hx : Finds x? x) (f : α → β) :
    Finds (f <$> x?) (x.map f) := by
  rw [Finds, ExceptT.run_map, hx]
  rfl

theorem mapM {f? : α → Work β} {f : α → Except GroundingError β} {l : List α} (h : ∀ a ∈ l, Finds (f? a) (f a)) :
    Finds (l.mapM f?) (l.mapM f) := by
  induction l with
  | nil => exact pure []
  | cons a l ih =>
      rw [List.mapM_cons, List.mapM_cons]
      have hrest := ih fun b hb => h b (List.mem_cons_of_mem a hb)
      exact (h a List.mem_cons_self).bind fun b _ => hrest.bind fun bs _ => pure (b :: bs)

end Finds

/-! ### Work that declares symbols -/

abbrev Naming := StateT Symbols Work

def modify? (f? : Symbols → Option Symbols) : Naming Unit := fun s => ExceptT.lift ((f? s).map ((), ·))

def modifyGet? {α : Type} (f? : Symbols → Option (α × Symbols)) : Naming α := fun s => ExceptT.lift (f? s)

/-- From symbols with `P` all lookups find something, and `Q` holds of the result. -/
def Agrees {α : Type} (P : Symbols → Prop) (x? : Naming α) (x : HtnPlanner.Naming α) (Q : α → Symbols → Prop) :
    Prop :=
  ∀ s, P s → Finds (x? s) (x s) ∧ ∀ a s', x s = .ok (a, s') → Q a s'

namespace Agrees

variable {α β : Type} {P P' : Symbols → Prop} {Q Q' : α → Symbols → Prop} {R : β → Symbols → Prop}

theorem mono {x? : Naming α} {x : HtnPlanner.Naming α} (h : Agrees P x? x Q) (hP : ∀ s, P' s → P s)
    (hQ : ∀ a s, Q a s → Q' a s) : Agrees P' x? x Q' := by
  intro s hs
  obtain ⟨hfinds, hkeeps⟩ := h s (hP s hs)
  exact ⟨hfinds, fun a s' ha => hQ a s' (hkeeps a s' ha)⟩

theorem pure {a : α} (h : ∀ s, P s → Q a s) : Agrees P (pure a) (pure a) Q := by
  refine fun s hs => ⟨rfl, fun b s' hb => ?_⟩
  obtain ⟨rfl, rfl⟩ := Prod.mk.inj (Except.ok.inj hb)
  exact h s hs

theorem throw {e : GroundingError} : Agrees P (throw e) (throw e) Q :=
  fun _ _ => ⟨rfl, fun _ _ h => by cases h⟩

theorem bind {x? : Naming α} {x : HtnPlanner.Naming α} (hx : Agrees P x? x Q) {f? : α → Naming β}
    {f : α → HtnPlanner.Naming β} (hf : ∀ a, Agrees (Q a) (f? a) (f a) R) : Agrees P (x? >>= f?) (x >>= f) R := by
  intro s hs
  obtain ⟨hfinds, hkeeps⟩ := hx s hs
  refine ⟨hfinds.bind fun r hr => (hf r.1 r.2 (hkeeps r.1 r.2 hr)).1, fun b s' hb => ?_⟩
  cases hr : x s with
  | error e =>
      have herror : (x >>= f) s = .error e := by
        change (x s >>= fun r => f r.1 r.2) = _
        rw [hr]
        rfl
      rw [herror] at hb
      cases hb
  | ok r =>
      have hok : (x >>= f) s = f r.1 r.2 := by
        change (x s >>= fun r => f r.1 r.2) = _
        rw [hr]
        rfl
      rw [hok] at hb
      exact (hf r.1 r.2 (hkeeps r.1 r.2 hr)).2 b s' hb

theorem get : Agrees P get get fun a s => a = s ∧ P s := by
  refine fun s hs => ⟨rfl, fun a s' ha => ?_⟩
  obtain ⟨rfl, rfl⟩ := Prod.mk.inj (Except.ok.inj ha)
  exact ⟨rfl, hs⟩

theorem modify {f? : Symbols → Option Symbols} {f : Symbols → Symbols} {Q : Unit → Symbols → Prop}
    (h : ∀ s, P s → f? s = some (f s) ∧ Q () (f s)) : Agrees P (modify? f?) (modify f) Q := by
  intro s hs
  obtain ⟨hf, hq⟩ := h s hs
  refine ⟨.lift (by rw [hf]; rfl), fun _ s' hs' => ?_⟩
  obtain ⟨-, rfl⟩ := Prod.mk.inj (Except.ok.inj hs')
  exact hq

theorem modifyGet {f? : Symbols → Option (α × Symbols)} {f : Symbols → α × Symbols}
    (h : ∀ s, P s → f? s = some (f s) ∧ Q (f s).1 (f s).2) : Agrees P (modifyGet? f?) (modifyGet f) Q := by
  intro s hs
  obtain ⟨hf, hq⟩ := h s hs
  refine ⟨.lift hf, fun a s' ha => ?_⟩
  rw [Except.ok.inj ha] at hq
  exact hq

theorem lift {x? : Work α} {x : Except GroundingError α} (hx : Finds x? x) :
    Agrees P (liftM x?) (liftM x) fun _ => P := by
  intro s hs
  refine ⟨hx.bind fun a _ => .pure (a, s), fun a s' ha => ?_⟩
  cases x with
  | error e => cases ha
  | ok b =>
      obtain ⟨-, rfl⟩ := Prod.mk.inj (Except.ok.inj ha)
      exact hs

theorem forM {f? : α → Naming Unit} {f : α → HtnPlanner.Naming Unit} {l : List α}
    (h : ∀ a ∈ l, Agrees P (f? a) (f a) fun _ => P) : Agrees P (l.forM f?) (l.forM f) fun _ => P := by
  induction l with
  | nil => exact pure fun _ hs => hs
  | cons a l ih =>
      exact (h a List.mem_cons_self).bind fun _ => ih fun b hb => h b (List.mem_cons_of_mem a hb)

theorem mapM {f? : α → Naming β} {f : α → HtnPlanner.Naming β} {l : List α}
    (h : ∀ a ∈ l, Agrees P (f? a) (f a) fun _ => P) : Agrees P (l.mapM f?) (l.mapM f) fun _ => P := by
  induction l with
  | nil => exact pure fun _ hs => hs
  | cons a l ih =>
      rw [List.mapM_cons, List.mapM_cons]
      have hrest := ih fun b hb => h b (List.mem_cons_of_mem a hb)
      exact (h a List.mem_cons_self).bind fun b => hrest.bind fun bs => pure fun _ hs => hs

theorem foldlM {f? : β → α → Naming β} {f : β → α → HtnPlanner.Naming β} {l : List α} {b : β}
    (h : ∀ b, ∀ a ∈ l, Agrees P (f? b a) (f b a) fun _ => P) :
    Agrees P (l.foldlM f? b) (l.foldlM f b) fun _ => P := by
  induction l generalizing b with
  | nil => exact pure fun _ hs => hs
  | cons a l ih =>
      rw [List.foldlM_cons, List.foldlM_cons]
      exact (h b a List.mem_cons_self).bind fun c => ih fun b d hd => h b d (List.mem_cons_of_mem a hd)

end Agrees

end HtnPlanner.Lookup
