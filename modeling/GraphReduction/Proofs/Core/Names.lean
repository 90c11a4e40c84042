import GraphReduction.Proofs.Core.Scope

/-!
# Binders with numbers

After renaming every binder is `x~n` with a number of its own, and names that are made later have
higher numbers. So no name is bound twice.
-/

namespace GraphReduction

open List

variable {xs : List Name}

/-!
## Numbers
-/

theorem suffix_unique {c : Char} {p q s t : List Char} (h : p ++ c :: s = q ++ c :: t)
    (hs : c ∉ s) (ht : c ∉ t) : s = t := by
  rcases append_eq_append_iff.1 h with ⟨r, -, hr⟩ | ⟨r, -, hr⟩
  · cases r with
    | nil => exact (cons.inj hr).2
    | cons d r =>
      rw [(cons.inj hr).2] at hs
      simp at hs
  · cases r with
    | nil => exact (cons.inj hr).2.symm
    | cons d r =>
      rw [(cons.inj hr).2] at ht
      simp at ht

theorem notMem_toString {c : Char} (hc : c.isDigit = false) (k : Nat) : c ∉ (toString k).toList := by
  intro hmem
  rw [Nat.toString_eq_repr] at hmem
  unfold Nat.repr at hmem
  rw [String.toList_ofList] at hmem
  rw [Nat.isDigit_of_mem_toDigits (by decide) (by decide) hmem] at hc
  cases hc

/-- **The number behind the last mark of a name is determined.** -/
theorem number_unique {mark : Char} (hmark : mark.isDigit = false) {p q : List Char} {j : Nat}
    (h : p ++ mark :: (toString j).toList = q ++ mark :: (toString k).toList) : j = k := by
  have hdigits := suffix_unique h (notMem_toString hmark j) (notMem_toString hmark k)
  have hstring := String.toList_injective hdigits
  rw [Nat.toString_eq_repr, Nat.toString_eq_repr] at hstring
  exact Nat.repr_injective hstring

theorem toList_numbered (base : Name) (k : Nat) :
    (base ++ "~" ++ toString k).toList = base.toList ++ '~' :: (toString k).toList := by
  rw [String.toList_append, String.toList_append, append_assoc]
  rfl

theorem baseName_numbered (base : Name) (k : Nat) :
    baseName (base ++ "~" ++ toString k) = baseName base := by
  unfold baseName
  rw [toList_numbered, takeWhile_append]
  split
  · rename_i hall
    rw [takeWhile_cons_of_neg (by simp), append_nil]
    congr 1
    exact (( takeWhile_prefix _).eq_of_length hall).symm
  · rfl

theorem baseName_baseName (x : Name) : baseName (baseName x) = baseName x := by
  unfold baseName
  rw [String.toList_ofList, takeWhile_idem]

/-- **What binders are like.** Those that are made up are like that too. -/
structure Naming where
  binder : Name → Prop
  numbered : ∀ {x : Name} (k : Nat), binder x → binder (x ++ "~" ++ toString k)
  base : ∀ {x : Name}, binder x → binder (baseName x)
  tuple : binder "$t"
  field : binder "$y"

/-- Binders that do not stand for a default. -/
def Naming.noDefault : Naming where
  binder x := baseName x ≠ "$d"
  numbered _ hx := by rwa [baseName_numbered]
  base hx := by rwa [baseName_baseName]
  tuple := by decide
  field := by decide

/-- Any binders. -/
def Naming.any : Naming :=
  ⟨fun _ => True, fun _ h => h, fun h => h, trivial, trivial⟩

namespace Expr

theorem spelled_any (e : Expr) : e.Spelled Naming.any.binder := by
  induction e with
  | var _ | global _ | lit _ | prim _ | comb _ | con _ _ => constructor
  | app f a ihf iha => exact .app ihf iha
  | lam x body ih => exact .lam trivial ih
  | letIn x rhs body ihr ihb => exact .letIn ihr trivial ihb
  | letRec binds body ihbinds ihbody => exact .letRec (fun _ _ => trivial) ihbinds ihbody
  | caseOf scrut arities alts other ihs iha iho =>
    exact .caseOf ihs (fun _ _ _ _ => trivial) iha iho

end Expr

variable {N : Naming} {n k : Nat}

/-- A name with a number up to `n`. -/
def Numbered (N : Naming) (n : Nat) (x : Name) : Prop :=
  N.binder x ∧ ∃ base k, k ≤ n ∧ x = base ++ "~" ++ toString k

namespace Numbered

variable {x base : Name}

theorem mono (h : Numbered N n x) (hn : n ≤ k) : Numbered N k x := by
  obtain ⟨hbase, base, j, hj, rfl⟩ := h
  exact ⟨hbase, base, j, hj.trans hn, rfl⟩

theorem ne_of_lt (h : Numbered N n x) (hk : n < k) : x ≠ base ++ "~" ++ toString k := by
  obtain ⟨-, base', j, hj, rfl⟩ := h
  intro heq
  have hlist := congrArg String.toList heq
  rw [toList_numbered, toList_numbered] at hlist
  have := number_unique rfl hlist
  omega

end Numbered

/-- A name that was made between two numbers. -/
def Made (N : Naming) (n k : Nat) (y : Name) : Prop := Numbered N k y ∧ ¬ Numbered N n y

theorem made_freshName {x : Name} (hx : N.binder x) (n : Nat) : Made N n (n + 1) (freshName x n).1 :=
  ⟨⟨N.numbered (n + 1) hx, x, n + 1, le_rfl, rfl⟩, fun h => h.ne_of_lt (Nat.lt_succ_self n) rfl⟩

theorem Made.mono {n' k' : Nat} {y : Name} (h : Made N n k y) (hn : n' ≤ n) (hk : k ≤ k') :
    Made N n' k' y := ⟨h.1.mono hk, fun h' => h.2 (h'.mono hn)⟩

theorem Made.notMem {y : Name} (h : Made N n k y) {Γ : List Name} (hΓ : ∀ x ∈ Γ, Numbered N n x) :
    y ∉ Γ := fun hy => h.2 (hΓ y hy)

theorem made_freshBinders (ρ : Renaming) (hxs : ∀ x ∈ xs, N.binder x) (n : Nat) :
    n ≤ (freshBinders ρ xs n).2 ∧ (freshBinders ρ xs n).1.1.Nodup ∧
      ∀ y ∈ (freshBinders ρ xs n).1.1, Made N n (freshBinders ρ xs n).2 y := by
  induction xs generalizing ρ n with
  | nil => exact ⟨le_rfl, nodup_nil, forall_mem_nil _⟩
  | cons x xs ih =>
    obtain ⟨hx, hxs⟩ := forall_mem_cons.1 hxs
    obtain ⟨hle, hnodup, hmade⟩ := ih ((x, (freshName x n).1) :: ρ) hxs (n + 1)
    have hnew := made_freshName hx n
    refine ⟨(Nat.le_succ n).trans hle, nodup_cons.2 ⟨fun hmem => ?_, hnodup⟩,
      forall_mem_cons.2 ⟨hnew.mono le_rfl hle, fun y hy => (hmade y hy).mono (Nat.le_succ n) le_rfl⟩⟩
    exact (hmade _ hmem).2 hnew.1

theorem pairwise_insertName (x : Name) (h : xs.Pairwise (· < ·)) :
    (insertName x xs).Pairwise (· < ·) := by
  induction xs with
  | nil => exact pairwise_singleton _ _
  | cons y xs ih =>
    obtain ⟨hy, hxs⟩ := pairwise_cons.1 h
    rw [insertName]
    split
    · rename_i hlt
      exact pairwise_cons.2 ⟨forall_mem_cons.2 ⟨hlt, fun z hz => hlt.trans (hy z hz)⟩, h⟩
    split
    · exact h
    · rename_i hlt hne
      refine pairwise_cons.2 ⟨fun z hz => ?_, ih hxs⟩
      rcases mem_insertName.1 hz with rfl | hz
      · exact lt_of_le_of_ne (not_lt.1 hlt) (Ne.symm hne)
      · exact hy z hz

theorem nodup_sortedNames (xs : List Name) : (sortedNames xs).Nodup := by
  have h : (sortedNames xs).Pairwise (· < ·) := by
    induction xs with
    | nil => exact .nil
    | cons x xs ih => exact pairwise_insertName x ih
  exact h.imp ne_of_lt

/-!
## What is mentioned
-/

/-- What an expression is made of, besides variables. -/
inductive Mention where
  | binder (x : Name)
  | global (x : Name)
  | group
deriving DecidableEq

/-- A binder. -/
def Mention.Tracked : Mention → Prop
  | .binder _ => True
  | .global _ | .group => False

namespace Expr

mutual

def mentions : Expr → List Mention
  | global x => [.global x]
  | app f a => f.mentions ++ a.mentions
  | lam x body => .binder x :: body.mentions
  | letIn x rhs body => .binder x :: (rhs.mentions ++ body.mentions)
  | letRec binds body => .group :: (mentionsInBinds binds ++ body.mentions)
  | caseOf scrut _ alts other => scrut.mentions ++ (mentionsInAlts alts ++ mentionsInOther other)
  | _ => []

def mentionsInBinds : List (Name × Expr) → List Mention
  | [] => []
  | (x, rhs) :: binds => (.binder x :: rhs.mentions) ++ mentionsInBinds binds

def mentionsInAlts : List (Alt Expr) → List Mention
  | [] => []
  | ⟨_, xs, body⟩ :: alts => (xs.map .binder ++ body.mentions) ++ mentionsInAlts alts

def mentionsInOther : Option Expr → List Mention
  | none => []
  | some e => e.mentions

end

end Expr

/-- What the members of a group mention, where `f` gives it for the right hand sides. -/
def groupMentions {α : Type} (f : α → List Mention) (binds : List (Name × α)) : List Mention :=
  binds.flatMap fun b => .binder b.1 :: f b.2

theorem Expr.mentions_letRec (binds : List (Name × Expr)) (body : Expr) :
    (letRec binds body).mentions = .group :: (groupMentions mentions binds ++ body.mentions) := by
  have hbinds : mentionsInBinds binds = groupMentions mentions binds := by
    induction binds with
    | nil => rfl
    | cons b binds ih => rw [mentionsInBinds, ih]; rfl
  rw [mentions, hbinds]

/-- What alternatives mention. -/
def altMentions {α : Type} (f : α → List Mention) (alts : List (Alt α)) : List Mention :=
  alts.flatMap fun alt => alt.binders.map .binder ++ f alt.body

/-- What a case mentions. -/
def caseMentions {α : Type} (f : α → List Mention) (scrut : α) (alts : List (Alt α)) (other : Option α) :
    List Mention :=
  f scrut ++ (altMentions f alts ++ other.toList.flatMap f)

theorem Expr.mentions_caseOf (scrut : Expr) (arities : List UInt32) (alts : List (Alt Expr))
    (other : Option Expr) : (caseOf scrut arities alts other).mentions =
      caseMentions mentions scrut alts other := by
  have halts : mentionsInAlts alts = altMentions mentions alts := by
    induction alts with
    | nil => rfl
    | cons alt alts ih => rw [mentionsInAlts, ih]; rfl
  have hother : mentionsInOther other = other.toList.flatMap mentions := by
    cases other with
    | none => rfl
    | some e => exact (append_nil _).symm
  rw [mentions, halts, hother]
  rfl

section Mentions

variable {α : Type} {f : α → List Mention} {μ : Mention}

theorem count_le_flatMap {l : List α} {a : α} (ha : a ∈ l) : (f a).count μ ≤ (l.flatMap f).count μ := by
  rw [count_flatMap]
  exact List.le_sum_of_mem (mem_map_of_mem ha)

theorem count_groupMentions (binds : List (Name × α)) : (groupMentions f binds).count μ =
    ((binds.map Prod.fst).map .binder).count μ + (binds.flatMap fun b => f b.2).count μ := by
  rw [← count_append, map_map]
  exact ((map_append_flatMap_perm binds _ _).count_eq μ).symm

end Mentions

/-!
## Binders that hide nothing
-/

variable {P P' : Name → Prop} {Γ Γ' : List Name} {l l' : List Mention}

/-- **No name is bound twice**, and none that is in scope already. Binders have `P`. -/
structure Tidy (P : Name → Prop) (Γ : List Name) (l : List Mention) : Prop where
  once : ∀ x, l.count (.binder x) ≤ 1
  named : ∀ x, .binder x ∈ l → P x ∧ x ∉ Γ

namespace Tidy

theorem weaken (h : Tidy P Γ l) (hP : ∀ x, P x → P' x) (hΓ : ∀ x ∈ Γ', P x → x ∈ Γ) :
    Tidy P' Γ' l :=
  ⟨h.once, fun x hx => ⟨hP x (h.named x hx).1, fun hmem => (h.named x hx).2
    (hΓ x hmem (h.named x hx).1)⟩⟩

theorem le (h : Tidy P Γ l) (hle : ∀ μ : Mention, μ.Tracked → l'.count μ ≤ l.count μ) :
    Tidy P Γ l' := by
  have hmem : ∀ μ : Mention, μ.Tracked → μ ∈ l' → μ ∈ l := fun μ ht hμ =>
    count_pos_iff.1 ((count_pos_iff.2 hμ).trans_le (hle μ ht))
  exact ⟨fun x => (hle (.binder x) trivial).trans (h.once x),
    fun x hx => h.named x (hmem (.binder x) trivial hx)⟩

theorem under (h : Tidy P Γ l) {B : List Name} {r : List Mention}
    (hle : ∀ μ : Mention, μ.Tracked → (B.map Mention.binder ++ r).count μ ≤ l.count μ) :
    B.Nodup ∧ (∀ y ∈ B, P y ∧ y ∉ Γ) ∧ Tidy P (B ++ Γ) r := by
  have h' := h.le hle
  have hcount : ∀ y, B.count y + r.count (.binder y) ≤ 1 := by
    intro y
    have hy := h'.once y
    rwa [count_append, count_map_of_injective B _ fun _ _ h => Mention.binder.inj h] at hy
  refine ⟨nodup_iff_count_le_one.2 fun y => by have := hcount y; omega,
    fun y hy => h'.named y (mem_append_left _ (mem_map_of_mem hy)),
    fun y => by have := hcount y; omega, fun x hx => ?_⟩
  obtain ⟨hPx, hnot⟩ := h'.named x (mem_append_right _ hx)
  refine ⟨hPx, fun hmem => (mem_append.1 hmem).elim (fun hy => ?_) hnot⟩
  have := hcount x
  have := count_pos_iff.2 hx
  have := count_pos_iff.2 hy
  omega

theorem group {α : Type} {f : α → List Mention} {binds : List (Name × α)}
    (h : Tidy P Γ (groupMentions f binds ++ l)) :
    (binds.map Prod.fst).Nodup ∧ (∀ x ∈ binds.map Prod.fst, P x ∧ x ∉ Γ) ∧
      (∀ b ∈ binds, Tidy P (binds.map Prod.fst ++ Γ) (f b.2)) ∧
      Tidy P (binds.map Prod.fst ++ Γ) l := by
  obtain ⟨hnodup, hnames, hrest⟩ := h.under (B := binds.map Prod.fst) (r := l) fun μ _ => by
    rw [count_append, count_append, count_groupMentions]
    omega
  refine ⟨hnodup, hnames, fun b hb => (h.under fun μ _ => ?_).2.2, hrest⟩
  have := count_le_flatMap (f := fun b => f b.2) (μ := μ) hb
  rw [count_append, count_append, count_groupMentions]
  omega

theorem ofCase {α : Type} {f : α → List Mention} {scrut : α} {alts : List (Alt α)}
    {other : Option α} (h : Tidy P Γ (caseMentions f scrut alts other)) :
    Tidy P Γ (f scrut) ∧ (∀ alt ∈ alts, (∀ x ∈ alt.binders, P x ∧ x ∉ Γ) ∧
      Tidy P (alt.binders ++ Γ) (f alt.body)) ∧ ∀ e, other = some e → Tidy P Γ (f e) := by
  refine ⟨h.le fun μ _ => ?_, fun alt halt => (h.under fun μ _ => ?_).2, ?_⟩
  · simp only [caseMentions, count_append]
    omega
  · have := count_le_flatMap (f := fun alt : Alt α => alt.binders.map .binder ++ f alt.body) (μ := μ) halt
    simp only [caseMentions, altMentions, count_append] at this ⊢
    omega
  · rintro e rfl
    exact h.le fun μ _ => by simp [caseMentions]; omega

end Tidy

namespace Expr

/-- An expression with tidy binders. -/
abbrev Tidy (P : Name → Prop) (Γ : List Name) (e : Expr) : Prop :=
  GraphReduction.Tidy P Γ e.mentions

theorem Tidy.app {f a : Expr} (h : (app f a).Tidy P Γ) : f.Tidy P Γ ∧ a.Tidy P Γ :=
  ⟨h.le fun μ _ => by simp [mentions], h.le fun μ _ => by simp [mentions]⟩

theorem Tidy.lam {x : Name} {body : Expr} (h : (lam x body).Tidy P Γ) :
    (P x ∧ x ∉ Γ) ∧ body.Tidy P (x :: Γ) := by
  obtain ⟨-, hx, hbody⟩ := h.under (B := [x]) fun _ _ => le_rfl
  exact ⟨hx x mem_cons_self, hbody⟩

theorem Tidy.letIn {x : Name} {rhs body : Expr} (h : (letIn x rhs body).Tidy P Γ) :
    rhs.Tidy P Γ ∧ (P x ∧ x ∉ Γ) ∧ body.Tidy P (x :: Γ) := by
  obtain ⟨-, hx, hbody⟩ := h.under (B := [x]) (r := body.mentions) fun μ _ => by
    simp [mentions, count_cons]
  exact ⟨h.le fun μ _ => by simp [mentions, count_cons]; omega, hx x mem_cons_self, hbody⟩

end Expr

namespace Core

abbrev mentions (c : Core) : List Mention := c.toExpr.mentions

/-- A core expression with tidy binders. -/
abbrev Tidy (P : Name → Prop) (Γ : List Name) (c : Core) : Prop :=
  c.toExpr.Tidy P Γ

theorem mentions_caseOf (scrut : Core) (arities : List UInt32) (alts : List (Alt Core))
    (other : Option Core) : (caseOf scrut arities alts other).mentions =
      caseMentions mentions scrut alts other := by
  rw [mentions, toExpr, altsToExpr_eq, otherToExpr_eq, Expr.mentions_caseOf, caseMentions, altMentions,
    flatMap_map]
  cases other <;> rfl

theorem Tidy.caseOf {scrut : Core} {arities : List UInt32} {alts : List (Alt Core)}
    {other : Option Core} (h : (caseOf scrut arities alts other).Tidy P Γ) :
    scrut.Tidy P Γ ∧ (∀ alt ∈ alts, (∀ x ∈ alt.binders, P x ∧ x ∉ Γ) ∧
      alt.body.Tidy P (alt.binders ++ Γ)) ∧ ∀ e, other = some e → e.Tidy P Γ := by
  change GraphReduction.Tidy P Γ (mentions _) at h
  rw [mentions_caseOf] at h
  exact h.ofCase

/-- **Substitution keeps what is mentioned** but in what is put in place of variables. -/
theorem count_substitute {c : Core} {σ : Name → Option Core} {μ : Mention}
    (hσ : ∀ x e, σ x = some e → μ ∉ e.mentions) : (c.substitute σ).mentions.count μ = c.mentions.count μ := by
  induction c with
  | var x =>
    rw [Core.substitute]
    cases hs : σ x with
    | none => rfl
    | some e => exact count_eq_zero.2 (hσ x e hs)
  | app f a ihf iha => simp only [substitute, mentions, toExpr, Expr.mentions, count_append] at *; omega
  | lam x body ih => simp only [substitute, mentions, toExpr, Expr.mentions, count_cons] at *; omega
  | letIn x rhs body ihr ihb =>
    simp only [substitute, mentions, toExpr, Expr.mentions, count_cons, count_append] at *
    omega
  | caseOf scrut arities alts other ihs iha iho =>
    have halts : (altMentions mentions (alts.map fun alt => ⟨alt.tag, alt.binders,
        alt.body.substitute σ⟩)).count μ = (altMentions mentions alts).count μ := by
      rw [altMentions, altMentions, flatMap_map, count_flatMap, count_flatMap]
      refine congrArg sum (map_congr_left fun alt halt => ?_)
      simp only [Function.comp_apply, count_append, iha alt halt]
    have hother : ((other.map (substitute σ)).toList.flatMap mentions).count μ =
        (other.toList.flatMap mentions).count μ := by
      cases other with
      | none => rfl
      | some e => simpa using iho e rfl
    rw [substitute, substituteAlts_eq, substituteOther_eq, mentions_caseOf, mentions_caseOf]
    simp only [caseMentions, count_append]
    omega
  | _ => rfl

theorem mentions_apply (f : Core) (args : List Core) :
    (f.apply args).mentions = f.mentions ++ args.flatMap mentions := by
  induction args generalizing f with
  | nil => exact (append_nil _).symm
  | cons a args ih => exact (ih (.app f a)).trans (append_assoc ..)

theorem mentions_peel (c : Core) : c.mentions = c.peel.1.map .binder ++ c.peel.2.mentions := by
  induction c with
  | lam x body ih => exact congrArg (Mention.binder x :: ·) ih
  | _ => rfl

theorem mentions_lets (binds : List (Name × Core)) (body : Core) :
    (Core.lets binds body).mentions = groupMentions mentions binds ++ body.mentions := by
  induction binds with
  | nil => rfl
  | cons b binds ih =>
    show Mention.binder b.1 :: (b.2.mentions ++ (Core.lets binds body).mentions) = _
    rw [ih, ← append_assoc]
    rfl

end Core

/-!
## New binders
-/

/-- **Binders that are mentioned more often were made between two numbers**, each of them once. -/
structure Grown (N : Naming) (n k : Nat) (l l' : List Mention) : Prop where
  le : n ≤ k
  binders : ∀ x, l'.count (.binder x) ≤ l.count (.binder x) ∨
    Made N n k x ∧ l'.count (.binder x) ≤ l.count (.binder x) + 1

namespace Grown

variable {k' : Nat} {l₁ l₂ : List Mention}

theorem refl (h : n ≤ k) (l : List Mention) : Grown N n k l l := ⟨h, fun _ => .inl le_rfl⟩

theorem append {m m' : List Mention} (h : Grown N n k l l') (h' : Grown N k k' m m') :
    Grown N n k' (l ++ m) (l' ++ m') where
  le := h.le.trans h'.le
  binders x := by
    rw [count_append, count_append]
    rcases h.binders x with hx | ⟨hmade, hx⟩ <;> rcases h'.binders x with hx' | ⟨hmade', hx'⟩
    · exact .inl (by omega)
    · exact .inr ⟨hmade'.mono h.le le_rfl, by omega⟩
    · exact .inr ⟨hmade.mono le_rfl h'.le, by omega⟩
    · exact absurd hmade.1 hmade'.2

theorem trans (h : Grown N n k l l') (h' : Grown N k k' l' l₁) : Grown N n k' l l₁ where
  le := h.le.trans h'.le
  binders x := by
    rcases h.binders x with hx | ⟨hmade, hx⟩ <;> rcases h'.binders x with hx' | ⟨hmade', hx'⟩
    · exact .inl (by omega)
    · exact .inr ⟨hmade'.mono h.le le_rfl, by omega⟩
    · exact .inr ⟨hmade.mono le_rfl h'.le, by omega⟩
    · exact absurd hmade.1 hmade'.2

theorem later (h : Grown N n k l l') (hk : k ≤ k') : Grown N n k' l l' := h.trans (refl hk l')

theorem more (h : Grown N n k [] l') (l : List Mention) : Grown N n k l (l' ++ l) :=
  h.append (refl le_rfl l)

theorem cons (h : Grown N n k l l') (μ : Mention) : Grown N n k (μ :: l) (μ :: l') :=
  (refl le_rfl [μ]).append h

theorem mono (h : Grown N n k l l') (hl : ∀ μ : Mention, μ.Tracked → l.count μ ≤ l₁.count μ)
    (hl' : ∀ μ : Mention, μ.Tracked → l₂.count μ ≤ l'.count μ) : Grown N n k l₁ l₂ where
  le := h.le
  binders x := by
    have hx := hl (.binder x) trivial
    have hx' := hl' (.binder x) trivial
    exact (h.binders x).imp (fun _ => by omega) fun ⟨hmade, _⟩ => ⟨hmade, by omega⟩

theorem tidy (h : Grown N n k l l') (hl : Tidy (Numbered N n) Γ l)
    (hΓ : ∀ x ∈ Γ, Numbered N n x) : Tidy (Numbered N k) Γ l' where
  once x := by
    have hold := hl.once x
    rcases h.binders x with hx | ⟨hmade, hx⟩
    · omega
    · have : l.count (.binder x) = 0 := count_eq_zero.2 fun hmem => hmade.2 (hl.named x hmem).1
      omega
  named x hx := by
    rcases h.binders x with hle | ⟨hmade, -⟩
    · obtain ⟨hnum, hnot⟩ := hl.named x (count_pos_iff.1 ((count_pos_iff.2 hx).trans_le hle))
      exact ⟨hnum.mono h.le, hnot⟩
    · exact ⟨hmade.1, hmade.notMem hΓ⟩

theorem fresh (hn : n ≤ k) {ys : List Name} (hnodup : ys.Nodup) (hys : ∀ y ∈ ys, Made N n k y) :
    Grown N n k [] (ys.map .binder) where
  le := hn
  binders x := by
    rw [count_map_of_injective ys _ fun _ _ h => Mention.binder.inj h]
    by_cases hx : x ∈ ys
    · exact .inr ⟨hys x hx, nodup_iff_count_le_one.1 hnodup x⟩
    · exact .inl (count_eq_zero.2 hx).le

end Grown

namespace Expr

variable {ρ : Renaming}

theorem grown_freshBinders (ρ : Renaming) (hxs : ∀ x ∈ xs, N.binder x) (n : Nat) :
    Grown N n (freshBinders ρ xs n).2 [] ((freshBinders ρ xs n).1.1.map .binder) := by
  obtain ⟨hle, hnodup, hmade⟩ := made_freshBinders ρ hxs n
  exact .fresh hle hnodup hmade

theorem grown_renameBinds {binds : List (Name × Expr)}
    (h : ∀ b ∈ binds, ∀ n, Grown N n (b.2.rename ρ n).2 [] (b.2.rename ρ n).1.mentions) (n : Nat) :
    Grown N n (renameBinds ρ binds n).2 [] ((renameBinds ρ binds n).1.flatMap mentions) := by
  induction binds generalizing n with
  | nil => exact .refl le_rfl _
  | cons b binds ih =>
    obtain ⟨hb, hbinds⟩ := forall_mem_cons.1 h
    exact (hb n).append (ih hbinds _)

theorem grown_renameAlts {alts : List (Alt Expr)}
    (hbinders : ∀ alt ∈ alts, ∀ x ∈ alt.binders, N.binder x)
    (h : ∀ alt ∈ alts, ∀ ρ n, Grown N n (alt.body.rename ρ n).2 [] (alt.body.rename ρ n).1.mentions)
    (n : Nat) : Grown N n (renameAlts ρ alts n).2 [] (altMentions mentions (renameAlts ρ alts n).1) := by
  induction alts generalizing n with
  | nil => exact .refl le_rfl _
  | cons alt alts ih =>
    obtain ⟨halt, halts⟩ := forall_mem_cons.1 h
    obtain ⟨hbinder, hbinders⟩ := forall_mem_cons.1 hbinders
    exact ((grown_freshBinders ρ hbinder n).append (halt _ _)).append (ih hbinders halts _)

/-- Renaming mentions only binders made for it, each of them once. -/
theorem grown_rename {e : Expr} (h : e.Spelled N.binder) (ρ : Renaming) (n : Nat) :
    Grown N n (e.rename ρ n).2 [] (e.rename ρ n).1.mentions := by
  have hone : ∀ {x : Name} (n : Nat), N.binder x →
      Grown N n (n + 1) [] [.binder (freshName x n).1] := fun n hx =>
    .fresh (Nat.le_succ n) (nodup_singleton _) (forall_mem_singleton.2 (made_freshName hx n))
  induction h generalizing ρ n with
  | global x =>
    refine (Grown.refl le_rfl []).mono (fun _ _ => le_rfl) fun μ hμ => (count_eq_zero.2 fun hmem => ?_).le
    rw [mem_singleton.1 hmem] at hμ
    exact hμ
  | @app f a _ _ ihf iha => exact (ihf ρ n).append (iha ρ _)
  | @lam x body hx _ ih => exact (hone n hx).append (ih _ (n + 1))
  | @letIn x rhs body _ hx _ ihr ihb =>
    exact ((ihr ρ n).append ((hone _ hx).append (ihb _ _))).mono (fun _ _ => le_rfl)
      fun μ _ => (perm_middle.count_eq μ).ge
  | @letRec binds body hnames _ _ ihbinds ihbody =>
    have hbase : ∀ x ∈ binds.map Prod.fst, N.binder x := forall_mem_map.2 hnames
    have hnew := grown_freshBinders ρ hbase n
    have hlen := (freshBinders_spec ρ (binds.map Prod.fst) n).1
    set ys := (freshBinders ρ (binds.map Prod.fst) n).1.1
    set ρ' := (freshBinders ρ (binds.map Prod.fst) n).1.2
    set i := (freshBinders ρ (binds.map Prod.fst) n).2
    have hrhss := grown_renameBinds (fun b hb n => ihbinds b hb ρ' n) i
    have hlen' := length_renameBinds ρ' binds i
    set rhss := (renameBinds ρ' binds i).1
    have hle : rhss.length = ys.length := by rw [hlen, hlen', length_map]
    show Grown N n _ [] (Expr.letRec (ys.zip rhss) (body.rename ρ' (renameBinds ρ' binds i).2).1).mentions
    refine (hnew.append (hrhss.append (ihbody ρ' _))).mono (fun _ _ => le_rfl) fun μ hμ => ?_
    rw [mentions_letRec, count_cons_of_ne (by rintro rfl; exact hμ), count_append, count_groupMentions,
      map_fst_zip hle.ge, count_append, count_append]
    have hsnd : (ys.zip rhss).flatMap (fun b => b.2.mentions) = rhss.flatMap mentions := by
      rw [← flatMap_map Prod.snd mentions, map_snd_zip hle.le]
    rw [hsnd]
    omega
  | @caseOf scrut arities alts other _ hbinders _ _ ihs iha iho =>
    have ho : ∀ k, Grown N k (renameOther ρ other k).2 []
        ((renameOther ρ other k).1.toList.flatMap mentions) := by
      intro k
      cases other with
      | none => exact .refl le_rfl _
      | some e =>
        show Grown N k _ [] ((e.rename ρ k).1.mentions ++ [])
        rw [append_nil]
        exact iho e rfl ρ k
    show Grown N n _ [] (Expr.caseOf _ arities _ _).mentions
    rw [mentions_caseOf]
    exact (ihs ρ n).append ((grown_renameAlts hbinders iha _).append (ho _))
  | _ => exact .refl le_rfl _

end Expr

end GraphReduction
