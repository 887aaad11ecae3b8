import HtnPlanner.Encoded.OfGround
import HtnPlanner.Proofs.Expr.Literals
import Mathlib.Data.List.Nodup
import Mathlib.Data.Set.Basic

/-!
A state with a bit for each fact stands for the set of the facts whose bits are set. Conditions, effects
and goals mean the same on either side.
-/

namespace HtnPlanner

variable {α : Type} [BEq α] [LawfulBEq α]

theorem getElem?_of_idxOf? {l : List α} {a : α} {k : Nat} (h : l.idxOf? a = some k) : l[k]? = some a := by
  obtain ⟨hk, ha, -⟩ := List.findIdx?_eq_some_iff_getElem.mp h
  rw [List.getElem?_eq_getElem hk, beq_iff_eq.mp ha]

theorem idxOf?_eq_some {l : List α} {a : α} (h : a ∈ l) : l.idxOf? a = some (l.idxOf a) :=
  List.findIdx?_eq_some_iff_findIdx_eq.mpr ⟨List.idxOf_lt_length_of_mem h, rfl⟩

theorem idxOf?_inj {l : List α} {a b : α} {k : Nat} (ha : l.idxOf? a = some k) (hb : l.idxOf? b = some k) :
    a = b :=
  Option.some.inj ((getElem?_of_idxOf? ha).symm.trans (getElem?_of_idxOf? hb))

theorem idxOf?_eq_some_iff_of_nodup {l : List α} (h : l.Nodup) {a : α} {k : Nat} :
    l.idxOf? a = some k ↔ l[k]? = some a := by
  refine ⟨getElem?_of_idxOf?, fun hk => ?_⟩
  obtain ⟨hlt, rfl⟩ := List.getElem?_eq_some_iff.mp hk
  rw [idxOf?_eq_some (List.getElem_mem hlt), h.idxOf_getElem k hlt]

def State.Encodes (facts : List Fact) (s : State) (S : Set Fact) : Prop :=
  ∀ f k, facts.idxOf? f = some k → (s.holds k = true ↔ f ∈ S)

namespace Encoded

variable {facts : List Fact} {s : State} {S : Set Fact} {literals : List Literal}

theorem contains_indices {positive : Bool} {k : Nat} : (indices facts positive literals).contains k = true ↔
    ∃ f, ⟨positive, f⟩ ∈ literals ∧ facts.idxOf? f = some k := by
  simp only [indices, IndexSet.contains_ofList, List.contains_iff_mem, List.mem_filterMap, List.mem_filter,
    beq_iff_eq]
  constructor
  · rintro ⟨⟨q, f⟩, ⟨hl, rfl⟩, hk⟩
    exact ⟨f, hl, hk⟩
  · rintro ⟨f, hl, hk⟩
    exact ⟨_, ⟨hl, rfl⟩, hk⟩

theorem contains_indices_of_idxOf? {positive : Bool} {f : Fact} {k : Nat} (hk : facts.idxOf? f = some k) :
    (indices facts positive literals).contains k = true ↔ ⟨positive, f⟩ ∈ literals := by
  rw [contains_indices]
  constructor
  · rintro ⟨g, hg, hgk⟩
    rwa [idxOf?_inj hk hgk]
  · exact fun hf => ⟨f, hf, hk⟩

theorem holds_condition (h : s.Encodes facts S) (hfacts : ∀ l ∈ literals, l.fact ∈ facts) :
    (condition facts literals).holds s = true ↔ ∀ l ∈ literals, l.Holds S := by
  rw [Condition.holds_iff]
  constructor
  · rintro ⟨hpos, hneg⟩ ⟨positive, f⟩ hl
    obtain ⟨k, hk⟩ : ∃ k, facts.idxOf? f = some k := ⟨_, idxOf?_eq_some (hfacts _ hl)⟩
    cases positive with
    | true => exact iff_of_true ((h f k hk).mp (hpos k (contains_indices.mpr ⟨f, hl, hk⟩))) rfl
    | false =>
        have hs : s.holds k = false := hneg k (contains_indices.mpr ⟨f, hl, hk⟩)
        have hf : f ∉ S := fun hf => by simp [(h f k hk).mpr hf] at hs
        exact iff_of_false hf (by simp)
  · intro hholds
    refine ⟨fun k hk => ?_, fun k hk => ?_⟩
    · obtain ⟨f, hl, hk⟩ := contains_indices.mp hk
      exact (h f k hk).mpr ((hholds _ hl).mpr rfl)
    · obtain ⟨f, hl, hk⟩ := contains_indices.mp hk
      have hf : f ∉ S := fun hf => by simpa using (hholds _ hl).mp hf
      exact Bool.eq_false_iff.mpr fun hs => hf ((h f k hk).mp hs)

theorem encodes_apply (h : s.Encodes facts S) :
    ((effect facts literals).apply s).Encodes facts
      ((S \ {f | ⟨false, f⟩ ∈ literals}) ∪ {f | ⟨true, f⟩ ∈ literals}) := by
  intro f k hk
  have hadd : (indices facts true literals).contains k = true ↔ ⟨true, f⟩ ∈ literals := contains_indices_of_idxOf? hk
  have hdel : (indices facts false literals).contains k = true ↔ ⟨false, f⟩ ∈ literals := contains_indices_of_idxOf? hk
  rw [Effect.holds_apply, Bool.or_eq_true, Bool.and_eq_true, Bool.not_eq_true', ← Bool.not_eq_true, h f k hk]
  exact or_congr (and_congr_right fun _ => not_congr hdel) hadd

theorem encodes_ofList (init : List Fact) :
    (State.ofList facts.length (init.filterMap facts.idxOf?)).Encodes facts {f | f ∈ init} := by
  intro f k hk
  rw [State.holds_ofList, List.contains_iff_mem, List.mem_filterMap]
  constructor
  · rintro ⟨g, hg, hgk⟩
    rwa [idxOf?_inj hk hgk]
  · exact fun hf => ⟨f, hf, hk⟩

/-- The clauses of the normal form are conjunctions of facts that the expression mentions. -/
theorem literals_of_mem_dnf {e : Expr} (he : e.IsGround) {c : List Expr} (hc : c ∈ e.dnf) :
    (Expr.conj c).IsClause ∧ (Expr.conj c).IsGround ∧ ∀ l ∈ (Expr.conj c).literals, l.fact ∈ e.facts := by
  have hover : e.Over (fun a => ∃ f ∈ e.facts, a.fact? = some f) fun _ _ => False := by
    apply Expr.Over.of_signedAtoms true he
    intro q hq
    obtain ⟨f, hf⟩ := Option.isSome_iff_exists.mp (Expr.Over.of_mem_signedAtoms he hq)
    exact ⟨f, List.mem_filterMap.mpr ⟨q, hq, hf⟩, hf⟩
  have hliteral : ∀ l ∈ c, l.IsLiteral ∧ l.Over (fun a => ∃ f ∈ e.facts, a.fact? = some f) fun _ _ => False :=
    fun l hl => hover.of_mem_dnf (fun _ _ h => absurd h id) hc hl
  have hisClause : (Expr.conj c).IsClause := fun l hl => (hliteral l hl).1
  have hisGround : (Expr.conj c).IsGround := by
    refine Expr.over_conj.mpr fun l hl => (hliteral l hl).2.mono (fun a ha => ?_) fun _ _ h => h
    obtain ⟨f, -, hf⟩ := ha
    exact Option.isSome_iff_exists.mpr ⟨f, hf⟩
  refine ⟨hisClause, hisGround, fun l hl => ?_⟩
  have hsome := Expr.literals?_eq_some hisClause (Expr.Over.conjuncts hisGround)
  obtain ⟨d, hd, hdl⟩ := (Expr.mem_literals hsome).mp hl
  exact Expr.Over.fact_mem (hliteral d hd).2 hdl

theorem holds_goal {e : Expr} (he : e.IsGround) (h : s.Encodes facts S) (hfacts : ∀ f ∈ e.facts, f ∈ facts) :
    (goal facts e).holds s = true ↔ e.Holds [] S := by
  have hclause : ∀ c ∈ e.dnf, ((condition facts (Expr.conj c).literals).holds s = true ↔
      ∀ l ∈ c, l.Holds [] S) := by
    intro c hc
    obtain ⟨hisClause, hisGround, hmem⟩ := literals_of_mem_dnf he hc
    rw [holds_condition h fun l hl => hfacts _ (hmem l hl),
      ← Expr.holds_iff_literals (b := []) hisClause hisGround, Expr.holds_conj]
  rw [goal, Goal.holds, List.any_map, List.any_eq_true, ← Expr.exists_dnf_holds]
  exact exists_congr fun c => and_congr_right fun hc => hclause c hc

end Encoded

end HtnPlanner
