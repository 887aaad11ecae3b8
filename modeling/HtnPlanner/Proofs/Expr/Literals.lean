import HtnPlanner.Proofs.Expr.Clauses

namespace HtnPlanner

def Literal.Holds (S : Set Fact) (l : Literal) : Prop := l.fact ∈ S ↔ l.positive = true

theorem mem_of_mapM_eq_some {α β : Type} {f : α → Option β} {as : List α} {bs : List β}
    (h : as.mapM f = some bs) {b : β} : b ∈ bs ↔ ∃ a ∈ as, f a = some b := by
  induction as generalizing bs with
  | nil => simp_all
  | cons a as ih =>
      simp only [List.mapM_cons, Option.pure_def, Option.bind_eq_bind, Option.bind_eq_some_iff,
        Option.some.injEq] at h
      obtain ⟨c, hc, cs, hcs, rfl⟩ := h
      simp only [List.mem_cons, ih hcs, exists_eq_or_imp, hc, Option.some.injEq, eq_comm (a := b)]

theorem length_of_mapM_eq_some {α β : Type} {f : α → Option β} {as : List α} {bs : List β}
    (h : as.mapM f = some bs) : bs.length = as.length := by
  induction as generalizing bs with
  | nil => simp_all
  | cons a as ih =>
      simp only [List.mapM_cons, Option.pure_def, Option.bind_eq_bind, Option.bind_eq_some_iff,
        Option.some.injEq] at h
      obtain ⟨b, -, cs, hcs, rfl⟩ := h
      rw [List.length_cons, List.length_cons, ih hcs]

theorem exists_mapM_eq_some {α β : Type} {f : α → Option β} {as : List α}
    (h : ∀ a ∈ as, ∃ b, f a = some b) : ∃ bs, as.mapM f = some bs := by
  induction as with
  | nil => exact ⟨[], rfl⟩
  | cons a as ih =>
      obtain ⟨b, hb⟩ := h a List.mem_cons_self
      obtain ⟨bs, hbs⟩ := ih fun a' ha' => h a' (List.mem_cons_of_mem a ha')
      exact ⟨b :: bs, by simp [hb, hbs]⟩

theorem exists_of_mapM_eq_some {α β : Type} {f : α → Option β} {as : List α} {bs : List β}
    (h : as.mapM f = some bs) {a : α} (ha : a ∈ as) : ∃ b, f a = some b := by
  induction as generalizing bs with
  | nil => exact absurd ha List.not_mem_nil
  | cons a' as ih =>
      simp only [List.mapM_cons, Option.pure_def, Option.bind_eq_bind, Option.bind_eq_some_iff] at h
      obtain ⟨c, hc, cs, hcs, -⟩ := h
      rcases List.mem_cons.mp ha with rfl | ha
      · exact ⟨c, hc⟩
      · exact ih hcs ha

namespace Expr

variable {b : List Nat} {S : Set Fact}

theorem holds_iff_conjuncts (e : Expr) : e.Holds b S ↔ ∀ c ∈ e.conjuncts, c.Holds b S := by
  cases e with
  | top => exact ⟨fun _ c hc => absurd hc List.not_mem_nil, fun _ => holds_top⟩
  | conj es => exact holds_conj
  | _ => exact List.forall_mem_singleton.symm

theorem holds_atom_ofFact (f : Fact) : (atom (.ofFact f)).Holds b S ↔ f ∈ S := by
  rw [Holds, Atom.subst_ofFact, Atom.fact?_ofFact]
  simp

theorem literal?_eq_some {e : Expr} {positive : Bool} {f : Fact} : e.literal? = some ⟨positive, f⟩ ↔
    ∃ x : Atom, e = (if positive then atom x else neg (atom x)) ∧ x.fact? = some f := by
  cases e with
  | atom x => cases positive <;> simp [literal?]
  | neg e => cases e <;> cases positive <;> simp [literal?, fact?]
  | _ => cases positive <;> simp [literal?]

theorem eq_ofLiteral {e : Expr} {l : Literal} (h : e.literal? = some l) : e = ofLiteral l := by
  obtain ⟨x, rfl, hx⟩ := literal?_eq_some.mp h
  rw [ofLiteral, ← Atom.eq_ofFact hx]

theorem holds_of_literal? {e : Expr} {l : Literal} (h : e.literal? = some l) :
    e.Holds b S ↔ l.Holds S := by
  obtain rfl := eq_ofLiteral h
  obtain ⟨positive, f⟩ := l
  cases positive with
  | true => simp [ofLiteral, holds_atom_ofFact, Literal.Holds]
  | false => simp [ofLiteral, holds_neg, holds_atom_ofFact, Literal.Holds]

/-- A ground conjunction of literals can be read, so that its literals are not the default ones. -/
theorem literals?_eq_some {e : Expr} (h : e.IsClause) (hg : ∀ c ∈ e.conjuncts, c.IsGround) :
    e.literals? = some e.literals := by
  obtain ⟨ls, hls⟩ := exists_mapM_eq_some fun c hc => literal?_isSome (h c hc) (hg c hc)
  have hls : e.literals? = some ls := hls
  rw [literals, hls, Option.getD_some]

theorem mem_literals {e : Expr} (h : e.literals? = some e.literals) {l : Literal} :
    l ∈ e.literals ↔ ∃ c ∈ e.conjuncts, c.literal? = some l :=
  mem_of_mapM_eq_some h

theorem conjuncts_eq_map_ofLiteral {e : Expr} (h : e.literals? = some e.literals) :
    e.conjuncts = e.literals.map ofLiteral :=
  eq_map_of_mapM_eq_some (fun _ _ => eq_ofLiteral) h

theorem holds_iff_of_literals? {e : Expr} (h : e.literals? = some e.literals) :
    e.Holds b S ↔ ∀ l ∈ e.literals, l.Holds S := by
  rw [holds_iff_conjuncts]
  constructor
  · intro hc l hl
    obtain ⟨c, hcm, hcl⟩ := (mem_literals h).mp hl
    exact (holds_of_literal? hcl).mp (hc c hcm)
  · intro hl c hc
    obtain ⟨l, hcl⟩ := exists_of_mapM_eq_some h hc
    exact (holds_of_literal? hcl).mpr (hl l ((mem_literals h).mpr ⟨c, hc, hcl⟩))

theorem holds_iff_literals {e : Expr} (h : e.IsClause) (hg : e.IsGround) :
    e.Holds b S ↔ ∀ l ∈ e.literals, l.Holds S :=
  holds_iff_of_literals? (literals?_eq_some h (Over.conjuncts hg))

theorem Over.exists_of_literal? {e : Expr} {A : Atom → Prop} {E : Arg → Arg → Prop} {l : Literal} (h : e.Over A E)
    (hl : e.literal? = some l) : ∃ a, A a ∧ a.fact? = some l.fact := by
  cases e with
  | atom a =>
      obtain ⟨f, hf, rfl⟩ := Option.map_eq_some_iff.mp hl
      exact ⟨a, h, hf⟩
  | neg e =>
      obtain ⟨f, hf, rfl⟩ := Option.map_eq_some_iff.mp hl
      cases e with
      | atom a => exact ⟨a, h, hf⟩
      | _ => exact absurd hf (by simp [fact?])
  | _ => exact absurd hl (by simp [literal?])

theorem Over.fact_mem {e : Expr} {E : Arg → Arg → Prop} {facts : List Fact} {l : Literal}
    (h : e.Over (fun a => ∃ f ∈ facts, a.fact? = some f) E) (hl : e.literal? = some l) :
    l.fact ∈ facts := by
  obtain ⟨a, ⟨f, hf, haf⟩, hal⟩ := h.exists_of_literal? hl
  rwa [Option.some.inj (hal.symm.trans haf)]

theorem Unknown.of_mem_literals {e : Expr} {value : Fact → Option Bool} {l : Literal} (h : e.Unknown value)
    (hread : e.literals? = some e.literals) (hl : l ∈ e.literals) : value l.fact = none := by
  obtain ⟨c, hc, hcl⟩ := (mem_literals hread).mp hl
  obtain ⟨a, hnone, ha⟩ := Over.exists_of_literal? (Over.conjuncts h c hc) hcl
  rwa [ha, Option.bind_some] at hnone

theorem literal?_ofLiteral (l : Literal) : (ofLiteral l).literal? = some l := by
  obtain ⟨positive, f⟩ := l
  cases positive <;> simp [ofLiteral, literal?, fact?]

theorem literals?_conj_ofLiteral (ls : List Literal) : (conj (ls.map ofLiteral)).literals? = some ls := by
  rw [literals?, conjuncts]
  induction ls with
  | nil => rfl
  | cons l ls ih => simp [literal?_ofLiteral, ih]

theorem literals_conj_ofLiteral (ls : List Literal) : (conj (ls.map ofLiteral)).literals = ls := by
  rw [literals, literals?_conj_ofLiteral, Option.getD_some]

end Expr

end HtnPlanner
