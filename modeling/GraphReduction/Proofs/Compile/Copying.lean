import GraphReduction.Proofs.Compile.Sharing

/-!
# Abstraction does not copy

A term is a graph: nodes with one label are one node. `[x]e` is put together from parts of `e` and new nodes,
and at every level the result of the level below may be taken apart again. None of this copies a node.
-/

namespace GraphReduction

open List

namespace Term

/-- How often `x` stands in a term. -/
def occurrences (x : Name) : Term → Nat
  | leaf _ (.var y) => if x = y then 1 else 0
  | leaf .. => 0
  | app _ f a => f.occurrences x + a.occurrences x

/-- The number of applications of a term that have `x` in them, each counted as often as it stands there. -/
def applicationsOver (x : Name) : Term → Nat
  | leaf .. => 0
  | app _ f a => f.applicationsOver x + a.applicationsOver x +
      if f.occurrences x + a.occurrences x = 0 then 0 else 1

/-- **A graph**: labels are below `n`, and nodes with the same label are the same. -/
structure Labelled (n : Nat) (t : Term) : Prop where
  label_lt : ∀ s ∈ t.subterms, s.label < n
  same : ∀ s ∈ t.subterms, ∀ s' ∈ t.subterms, s.label = s'.label → s = s'

/-- **What a term is made of**: nodes with labels from `n` to `n'`, and nodes of `e` without `x`. -/
def Reuses (x : Name) (n n' : Nat) (t e : Term) : Prop :=
  ∀ s ∈ t.subterms, (n ≤ s.label ∧ s.label < n') ∨ (s ∈ e.subterms ∧ s.occurrences x = 0)

section Reuses

variable {x : Name} {e e' f a t : Term} {n m n' m' : Nat}

theorem Reuses.mono (h : t.Reuses x n n' e) (hm : m ≤ n) (hm' : n' ≤ m') (he : e.subterms ⊆ e'.subterms) :
    t.Reuses x m m' e' := by
  intro s hs
  rcases h s hs with ⟨hle, hlt⟩ | ⟨hmem, hfree⟩
  · exact Or.inl ⟨hm.trans hle, lt_of_lt_of_le hlt hm'⟩
  · exact Or.inr ⟨he hmem, hfree⟩

theorem occurrences_of_mem_subterms {s : Term} (hs : s ∈ t.subterms) (ht : t.occurrences x = 0) :
    s.occurrences x = 0 := by
  induction t with
  | leaf label y =>
    obtain rfl := mem_singleton.1 hs
    exact ht
  | app label f a ihf iha =>
    obtain ⟨hf, ha⟩ := Nat.add_eq_zero_iff.1 ht
    rcases mem_cons.1 hs with rfl | hs
    · exact ht
    · rcases mem_append.1 hs with hs | hs
      · exact ihf hs hf
      · exact iha hs ha

theorem reuses_of_occurrences (hsub : t.subterms ⊆ e.subterms) (ht : t.occurrences x = 0) :
    t.Reuses x n n' e := fun _ hs => Or.inr ⟨hsub hs, occurrences_of_mem_subterms hs ht⟩

theorem Reuses.compositionParts (h : t.Reuses x n n' e) {p q : Term}
    (hpq : t.compositionParts? = some (p, q)) : p.Reuses x n n' e ∧ q.Reuses x n n' e := by
  unfold compositionParts? at hpq
  split at hpq
  · cases hpq
    exact ⟨fun s hs => h s (by simp [subterms, hs]), fun s hs => h s (by simp [subterms, hs])⟩
  · cases hpq

theorem Reuses.newApps {args : List Term} (hf : f.Reuses x n m e) (hargs : ∀ a ∈ args, a.Reuses x n m e)
    (hle : n ≤ m) : (f.newApps args m).1.Reuses x n (m + args.length) e ∧
      (f.newApps args m).2 = m + args.length := by
  induction args generalizing f m with
  | nil => exact ⟨hf, rfl⟩
  | cons a args ih =>
    obtain ⟨ha, hargs⟩ := forall_mem_cons.1 hargs
    have hnode : (app m f a).Reuses x n (m + 1) e := by
      intro s hs
      rcases mem_cons.1 hs with rfl | hs
      · exact Or.inl ⟨hle, Nat.lt_succ_self m⟩
      · rcases mem_append.1 hs with hs | hs
        · exact hf.mono le_rfl m.le_succ (Subset.refl _) s hs
        · exact ha.mono le_rfl m.le_succ (Subset.refl _) s hs
    have hrest := ih hnode (fun b hb => (hargs b hb).mono le_rfl m.le_succ (Subset.refl _))
      (hle.trans m.le_succ)
    rw [length_cons, Nat.add_comm args.length, ← Nat.add_assoc]
    exact hrest

theorem Reuses.newComb (c : Combinator) {args : List Term} (hargs : ∀ a ∈ args, a.Reuses x n m e)
    (hle : n ≤ m) : (Term.newComb c args m).1.Reuses x n (m + 1 + args.length) e ∧
      (Term.newComb c args m).2 = m + 1 + args.length := by
  refine Reuses.newApps (fun s hs => ?_) (fun b hb => (hargs b hb).mono le_rfl m.le_succ (Subset.refl _))
    (hle.trans m.le_succ)
  obtain rfl := mem_singleton.1 hs
  exact Or.inl ⟨hle, Nat.lt_succ_self m⟩

end Reuses

/-!
## Abstraction
-/

/-- **What an abstraction of `e` comes to** that finds the counter at `n`: nothing if `x` is not in `e`, and what
stands for `e` then reuses its nodes. -/
structure Assembled (x : Name) (e : Term) (n : Nat) (r : Option Term × Nat) : Prop where
  next_le : n ≤ r.2
  takes : r.2 ≤ n + (4 * e.applicationsOver x + e.occurrences x)
  free : r.1 = none ↔ e.occurrences x = 0
  made : (r.1.getD e).Reuses x n r.2 e

section Assembled

variable {x : Name} {e : Term} {n m : Nat}

theorem Assembled.of_none (h : e.occurrences x = 0) (hle : n ≤ m)
    (htakes : m ≤ n + (4 * e.applicationsOver x + e.occurrences x)) : Assembled x e n (none, m) :=
  ⟨hle, htakes, iff_of_true rfl h, reuses_of_occurrences (Subset.refl _) h⟩

theorem Assembled.of_newComb (c : Combinator) {args : List Term} (hargs : ∀ a ∈ args, a.Reuses x n m e)
    (hle : n ≤ m) (htakes : m + 1 + args.length ≤ n + (4 * e.applicationsOver x + e.occurrences x))
    (hpos : e.occurrences x ≠ 0) : Assembled x e n ((some <$> Term.newComb c args : Fresh _) m) := by
  obtain ⟨hreuses, hnext⟩ := Reuses.newComb c hargs hle
  refine ⟨?_, ?_, iff_of_false (Option.some_ne_none _) hpos, ?_⟩
  · show n ≤ (Term.newComb c args m).2
    omega
  · show (Term.newComb c args m).2 ≤ _
    omega
  · show Reuses x n (Term.newComb c args m).2 _ e
    rw [hnext]
    exact hreuses

/-- **An application**, of parts that are assembled. There are four labels left for it if `x` is in one of
them. -/
theorem Assembled.app {f a : Term} {rf ra : Option Term} {n1 n2 : Nat} (hf : Assembled x f n (rf, n1))
    (ha : Assembled x a n1 (ra, n2)) (label : Nat) :
    Assembled x (app label f a) n (abstractApp x f a rf ra n2) := by
  have hle : n ≤ n2 := le_trans hf.next_le ha.next_le
  have hroom : n2 + 4 * (if f.occurrences x + a.occurrences x = 0 then 0 else 1) ≤
      n + (4 * (Term.app label f a).applicationsOver x + (Term.app label f a).occurrences x) := by
    have h1 : n1 ≤ n + (4 * f.applicationsOver x + f.occurrences x) := hf.takes
    have h2 : n2 ≤ n1 + (4 * a.applicationsOver x + a.occurrences x) := ha.takes
    rw [applicationsOver, occurrences]
    omega
  have hsome : rf ≠ none ∨ ra ≠ none → f.occurrences x + a.occurrences x ≠ 0 := by
    intro h hzero
    obtain ⟨hzf, hza⟩ := Nat.add_eq_zero_iff.1 hzero
    exact h.elim (fun h => h (hf.free.2 hzf)) fun h => h (ha.free.2 hza)
  have hf' : (rf.getD f).Reuses x n n2 (Term.app label f a) :=
    hf.made.mono le_rfl ha.next_le (by simp [subterms])
  refine abstractApp_cases (P := fun t => t.Reuses x n n2 (Term.app label f a))
    (Q := fun y => Assembled x (Term.app label f a) n (y n2))
    (fun _ _ _ ht => ht.compositionParts) hf' (ha.made.mono hf.next_le le_rfl (by simp [subterms]))
    (fun hrf hra => ?_) (fun hrf hra => ?_) fun c args hmade hlen hargs => ?_
  · exact .of_none (by rw [occurrences, hf.free.1 hrf, ha.free.1 hra]) hle (by omega)
  · rw [hrf] at hf'
    exact ⟨hle, (Nat.le_add_right _ _).trans hroom, iff_of_false (Option.some_ne_none f) (hsome (.inr hra)), hf'⟩
  · rw [if_neg (hsome hmade)] at hroom
    exact .of_newComb c hargs hle (by omega) (hsome hmade)

/-- **Abstraction assembles its result**, by the parts of the term. -/
theorem assembled_abstractVar (x : Name) (e : Term) (n : Nat) : Assembled x e n (e.abstractVar x n) := by
  induction e generalizing n with
  | leaf label y =>
    cases y with
    | var y =>
      unfold abstractVar
      split
      · rename_i hxy
        have hone : (leaf label (.var y)).occurrences x = 1 := if_pos hxy
        refine .of_newComb .I (forall_mem_nil _) le_rfl ?_ (hone ▸ Nat.one_ne_zero)
        rw [hone, length_nil]
        omega
      · rename_i hxy
        exact .of_none (if_neg hxy) le_rfl (Nat.le_add_right _ _)
    | _ => exact .of_none rfl le_rfl (Nat.le_add_right _ _)
  | app label f a ihf iha => exact (ihf n).app (iha _) label

end Assembled

/-!
## Graphs
-/

theorem labelled_iff_has {n : Nat} {t : Term} : t.Labelled n ↔ ∃ l : Ledger, l.next = n ∧ l.Has t := by
  constructor
  · intro h
    refine ⟨⟨n, fun k => (t.subterms.find? (·.label == k)).getD t⟩, rfl, fun s hs => ⟨h.label_lt s hs, ?_⟩⟩
    obtain ⟨s', hs'⟩ : ∃ s', t.subterms.find? (·.label == s.label) = some s' :=
      Option.isSome_iff_exists.1 (find?_isSome.2 ⟨s, hs, beq_self_eq_true _⟩)
    have hlabel := find?_some hs'
    show (t.subterms.find? (·.label == s.label)).getD t = s
    rw [hs', Option.getD_some]
    exact h.same s' (mem_of_find?_eq_some hs') s hs (eq_of_beq hlabel)
  · rintro ⟨l, rfl, hl⟩
    refine ⟨fun s hs => (hl s hs).1, fun s hs s' hs' hlabel => ?_⟩
    rw [← (hl s hs).2, hlabel, (hl s' hs').2]

theorem Labelled.abstractVar {x : Name} {e r : Term} {n n' : Nat} (he : e.Labelled n)
    (h : e.abstractVar x n = (some r, n')) : r.Labelled n' := by
  obtain ⟨l, rfl, hl⟩ := labelled_iff_has.1 he
  obtain ⟨l', -, hnext, hr⟩ := Ledger.enters_abstractVar x hl
  rw [h] at hnext hr
  exact labelled_iff_has.2 ⟨l', hnext.symm, hr⟩

/-- **Abstraction does not copy.** Every node of `[x]e` is a new one, or it is a node of `e` in which `x` does
not occur. At most four nodes are made for every application in `e` over `x`, and one for every `x`, counted
with the graph unfolded. The result is a graph again, so a node without `x` that is shared in `e` is one node
in it. -/
theorem abstractVar_of_graph {x : Name} {e r : Term} {n n' : Nat} (he : e.Labelled n)
    (h : e.abstractVar x n = (some r, n')) :
    (∀ s ∈ r.subterms, (n ≤ s.label ∧ s.label < n') ∨ (s ∈ e.subterms ∧ s.occurrences x = 0)) ∧
      n' - n ≤ 4 * e.applicationsOver x + e.occurrences x ∧ r.Labelled n' := by
  have hmade := assembled_abstractVar x e n
  rw [h] at hmade
  have htakes : n' ≤ n + (4 * e.applicationsOver x + e.occurrences x) := hmade.takes
  exact ⟨hmade.made, by omega, he.abstractVar h⟩

/-- `B k k x (x k)`, where `k` is one node `g 1`. -/
def sharedCall : Term :=
  let k := app 2 (leaf 0 (.global "g")) (leaf 1 (.lit (.int 1)))
  app 9 (app 6 (app 5 (app 4 (leaf 3 (.comb .B)) k) k) (leaf 7 (.var "x"))) (app 8 (leaf 7 (.var "x")) k)

theorem abstractVar_of_graph_sharedCall : ∃ r n', sharedCall.Labelled 10 ∧
    sharedCall.abstractVar "x" 10 = (some r, n') ∧
    (∀ s ∈ r.subterms, (10 ≤ s.label ∧ s.label < n') ∨
      (s ∈ sharedCall.subterms ∧ s.occurrences "x" = 0)) ∧
    n' - 10 ≤ 4 * sharedCall.applicationsOver "x" + sharedCall.occurrences "x" ∧ r.Labelled n' := by
  have he : sharedCall.Labelled 10 := by
    constructor <;> simp [sharedCall, subterms, label]
  exact ⟨_, _, he, rfl, abstractVar_of_graph he rfl⟩

end Term

end GraphReduction
