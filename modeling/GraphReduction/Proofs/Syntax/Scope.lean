import GraphReduction.Proofs.Lists
import GraphReduction.Proofs.Syntax.Spelling

/-!
# Scopes of expressions that were read

The reader tells variables and top-level names apart with the names that are bound around them. For a
`letrec` it has to find these names by looking ahead, before the bindings are read.
-/

namespace GraphReduction

open List

variable {name source : String} {m : Module} {xs : List Name} {body : Expr}

/-- **An expression in its scope.** Variables are among `Γ`, and `D` holds of top-level names. An
alternative is for a constructor of its type and binds its fields; the number of these is only certain
in a text of fewer than `2 ^ 32` characters, as tags have 32 bits. `size` is the length of the text, if
the expression was read from one. -/
inductive Expr.ScopedIn (D : Name → Prop) (size : Option Nat) : List Name → Expr → Prop where
  | var {Γ x} : x ∈ Γ → ScopedIn D size Γ (.var x)
  | global {Γ x} : D x → ScopedIn D size Γ (.global x)
  | lit {Γ} (l) : ScopedIn D size Γ (.lit l)
  | prim {Γ} (p) : ScopedIn D size Γ (.prim p)
  | comb {Γ} (c) : ScopedIn D size Γ (.comb c)
  | con {Γ} (tag arity) : ScopedIn D size Γ (.con tag arity)
  | app {Γ f a} : ScopedIn D size Γ f → ScopedIn D size Γ a → ScopedIn D size Γ (.app f a)
  | lam {Γ x body} : ScopedIn D size (x :: Γ) body → ScopedIn D size Γ (.lam x body)
  | letIn {Γ x rhs body} : ScopedIn D size Γ rhs → ScopedIn D size (x :: Γ) body →
      ScopedIn D size Γ (.letIn x rhs body)
  | letRec {Γ binds body} : (∀ s ∈ size, binds.length ≤ s) →
      (∀ b ∈ binds, ScopedIn D size (binds.map Prod.fst ++ Γ) b.2) →
      ScopedIn D size (binds.map Prod.fst ++ Γ) body → ScopedIn D size Γ (.letRec binds body)
  | caseOf {Γ scrut arities alts other} : ScopedIn D size Γ scrut →
      (∀ s ∈ size, ∀ alt ∈ alts, ∃ k, arities[alt.tag.toNat]? = some k ∧
        (s < UInt32.size → alt.binders.length = k.toNat)) →
      (∀ alt ∈ alts, ScopedIn D size (alt.binders ++ Γ) alt.body) →
      (∀ e, other = some e → ScopedIn D size Γ e) → ScopedIn D size Γ (.caseOf scrut arities alts other)

/-- An expression in its scope, that was read from a text of length `size`. -/
abbrev Expr.Scoped (D : Name → Prop) (size : Nat) : List Name → Expr → Prop := ScopedIn D size

namespace Expr.ScopedIn

variable {D : Name → Prop} {size : Option Nat} {Γ Γ' : List Name} {e : Expr}

theorem append_subset_append (xs : List Name) (h : Γ ⊆ Γ') : xs ++ Γ ⊆ xs ++ Γ' :=
  append_subset.2 ⟨subset_append_left _ _, fun _ hx => mem_append_right xs (h hx)⟩

theorem weaken {D' : Name → Prop} (h : e.ScopedIn D size Γ) (hD : ∀ x, D x → D' x) (hsub : Γ ⊆ Γ') :
    e.ScopedIn D' size Γ' := by
  induction h generalizing Γ' with
  | var hx => exact .var (hsub hx)
  | global hx => exact .global (hD _ hx)
  | lit _ | prim _ | comb _ | con _ _ => constructor
  | app _ _ ihf iha => exact .app (ihf hsub) (iha hsub)
  | lam _ ih => exact .lam (ih (cons_subset_cons _ hsub))
  | letIn _ _ ihr ihb => exact .letIn (ihr hsub) (ihb (cons_subset_cons _ hsub))
  | letRec hlen _ _ ihbinds ihbody =>
    exact .letRec hlen (fun b hb => ihbinds b hb (append_subset_append _ hsub))
      (ihbody (append_subset_append _ hsub))
  | caseOf _ hfits _ _ ihs iha iho =>
    exact .caseOf (ihs hsub) hfits (fun alt halt => iha alt halt (append_subset_append _ hsub))
      fun e he => iho e he hsub

theorem mono (h : e.ScopedIn D size Γ) (hsub : Γ ⊆ Γ') : e.ScopedIn D size Γ' :=
  h.weaken (fun _ hx => hx) hsub

theorem lams (h : body.ScopedIn D size (xs ++ Γ)) : (Expr.lams xs body).ScopedIn D size Γ := by
  induction xs generalizing Γ with
  | nil => exact h
  | cons x xs ih =>
    refine .lam (ih (h.mono ?_))
    intro y hy
    simp only [cons_append, mem_cons, mem_append] at hy ⊢
    tauto

theorem of_app {f a : Expr} (h : (Expr.app f a).ScopedIn D size Γ) :
    f.ScopedIn D size Γ ∧ a.ScopedIn D size Γ := by
  cases h with
  | app hf ha => exact ⟨hf, ha⟩

theorem of_lam {x : Name} (h : (Expr.lam x body).ScopedIn D size Γ) : body.ScopedIn D size (x :: Γ) := by
  cases h with
  | lam hbody => exact hbody

theorem of_letIn {x : Name} {rhs : Expr} (h : (Expr.letIn x rhs body).ScopedIn D size Γ) :
    rhs.ScopedIn D size Γ ∧ body.ScopedIn D size (x :: Γ) := by
  cases h with
  | letIn hrhs hbody => exact ⟨hrhs, hbody⟩

theorem of_letRec {binds : List (Name × Expr)} (h : (Expr.letRec binds body).ScopedIn D size Γ) :
    (∀ s ∈ size, binds.length ≤ s) ∧ (∀ b ∈ binds, b.2.ScopedIn D size (binds.map Prod.fst ++ Γ)) ∧
      body.ScopedIn D size (binds.map Prod.fst ++ Γ) := by
  cases h with
  | letRec hlen hbinds hbody => exact ⟨hlen, hbinds, hbody⟩

theorem of_caseOf {scrut : Expr} {arities : List UInt32} {alts : List (Alt Expr)} {other : Option Expr}
    (h : (Expr.caseOf scrut arities alts other).ScopedIn D size Γ) : scrut.ScopedIn D size Γ ∧
      (∀ alt ∈ alts, alt.body.ScopedIn D size (alt.binders ++ Γ)) ∧
      ∀ e, other = some e → e.ScopedIn D size Γ := by
  cases h with
  | caseOf hscrut _ halts hother => exact ⟨hscrut, halts, hother⟩

end Expr.ScopedIn

/-- **Names as they are resolved** inside binders of `Γ`: a variable is one of these, and a top-level name is
none of them. -/
inductive Expr.Resolved : List Name → Expr → Prop where
  | var {Γ x} : x ∈ Γ → Resolved Γ (.var x)
  | global {Γ x} : x ∉ Γ → Resolved Γ (.global x)
  | lit {Γ} (l) : Resolved Γ (.lit l)
  | prim {Γ} (p) : Resolved Γ (.prim p)
  | comb {Γ} (c) : Resolved Γ (.comb c)
  | con {Γ} (tag arity) : Resolved Γ (.con tag arity)
  | app {Γ f a} : Resolved Γ f → Resolved Γ a → Resolved Γ (.app f a)
  | lam {Γ x body} : Resolved (x :: Γ) body → Resolved Γ (.lam x body)
  | letIn {Γ x rhs body} : Resolved Γ rhs → Resolved (x :: Γ) body → Resolved Γ (.letIn x rhs body)
  | letRec {Γ binds body} : (∀ b ∈ binds, Resolved (binds.map Prod.fst ++ Γ) b.2) →
      Resolved (binds.map Prod.fst ++ Γ) body → Resolved Γ (.letRec binds body)
  | caseOf {Γ scrut arities alts other} : Resolved Γ scrut →
      (∀ alt ∈ alts, Resolved (alt.binders ++ Γ) alt.body) →
      (∀ e, other = some e → Resolved Γ e) → Resolved Γ (.caseOf scrut arities alts other)

namespace Expr.Resolved

variable {Γ Γ' : List Name} {e : Expr}

theorem congr (h : e.Resolved Γ) (heq : ∀ x, x ∈ Γ ↔ x ∈ Γ') : e.Resolved Γ' := by
  have hcons : ∀ {Γ Γ' : List Name} (x : Name), (∀ y, y ∈ Γ ↔ y ∈ Γ') → ∀ y, y ∈ x :: Γ ↔ y ∈ x :: Γ' :=
    fun x heq y => by rw [mem_cons, mem_cons, heq y]
  have happend : ∀ {Γ Γ' : List Name} (xs : List Name), (∀ y, y ∈ Γ ↔ y ∈ Γ') →
      ∀ y, y ∈ xs ++ Γ ↔ y ∈ xs ++ Γ' := fun xs heq y => by rw [mem_append, mem_append, heq y]
  induction h generalizing Γ' with
  | var hx => exact .var ((heq _).1 hx)
  | global hx => exact .global fun hx' => hx ((heq _).2 hx')
  | lit _ | prim _ | comb _ | con _ _ => constructor
  | app _ _ ihf iha => exact .app (ihf heq) (iha heq)
  | lam _ ih => exact .lam (ih (hcons _ heq))
  | letIn _ _ ihr ihb => exact .letIn (ihr heq) (ihb (hcons _ heq))
  | letRec _ _ ihbinds ihbody =>
    exact .letRec (fun b hb => ihbinds b hb (happend _ heq)) (ihbody (happend _ heq))
  | caseOf _ _ _ ihs iha iho =>
    exact .caseOf (ihs heq) (fun alt halt => iha alt halt (happend _ heq)) fun e he => iho e he heq

theorem lams (h : body.Resolved (xs ++ Γ)) : (Expr.lams xs body).Resolved Γ := by
  induction xs generalizing Γ with
  | nil => exact h
  | cons x xs ih =>
    refine .lam (ih (h.congr fun y => ?_))
    simp only [cons_append, mem_cons, mem_append]
    tauto

end Expr.Resolved

namespace Read

open Fallible

variable {ts us : List Token} {declared : Declared} {t : Token} {kind : TokenKind}
  {info : ConstructorInfo}

/-!
## The lookahead
-/

/-- Tokens that the lookahead passes over, inside `d` brackets and inner lets. -/
def Skipped (d : Nat) (ts : List Token) : Prop :=
  ∀ rest, letRecNames d false (ts ++ rest) = letRecNames d false rest

/-- Tokens that are passed over everywhere, as those of an expression are. -/
def Balanced (ts : List Token) : Prop := ∀ d, Skipped d ts

/-- Tokens that are passed over inside brackets: those of bindings and alternatives. -/
def Nested (ts : List Token) : Prop := ∀ d, Skipped (d + 1) ts

theorem Skipped.nil (d : Nat) : Skipped d [] := fun _ => rfl

theorem Skipped.append {d : Nat} (h : Skipped d ts) (h' : Skipped d us) : Skipped d (ts ++ us) := by
  intro rest
  rw [append_assoc, h, h']

theorem Balanced.nested (h : Balanced ts) : Nested ts := fun d => h (d + 1)

/-- Kinds that the lookahead does not look at. -/
def plain : TokenKind → Bool
  | .leftParen | .leftBrace | .kwLet | .kwLetRec | .rightParen | .rightBrace | .kwIn | .semicolon
  | .endOfInput => false
  | _ => true

theorem Balanced.nil : Balanced [] := fun d => .nil d

theorem Balanced.append (h : Balanced ts) (h' : Balanced us) :
    Balanced (ts ++ us) := fun d => (h d).append (h' d)

theorem Nested.append (h : Nested ts) (h' : Nested us) : Nested (ts ++ us) :=
  fun d => (h d).append (h' d)

theorem balanced_plain (ht : t.kind = kind) (hk : plain kind = true) : Balanced [t] := by
  intro d rest
  rw [singleton_append, letRecNames, ht]
  cases kind <;> first | rfl | cases hk

theorem nested_semicolon (h : t.kind = .semicolon) : Nested [t] := by
  intro d rest
  rw [singleton_append, letRecNames, h]
  rfl

theorem balanced_brackets {l r : Token} (hl : l.kind = .leftParen ∨ l.kind = .leftBrace)
    (hr : r.kind = .rightParen ∨ r.kind = .rightBrace) (h : Nested ts) :
    Balanced (l :: ts ++ [r]) := by
  intro d rest
  have hopen : letRecNames d false (l :: (ts ++ [r] ++ rest)) =
      letRecNames (d + 1) false (ts ++ [r] ++ rest) := by
    rw [letRecNames]
    rcases hl with hl | hl <;> rw [hl]
  have hclose : letRecNames (d + 1) false (r :: rest) = letRecNames d false rest := by
    rw [letRecNames]
    rcases hr with hr | hr <;> rw [hr] <;> rfl
  rw [cons_append, cons_append, hopen, append_assoc, h d, singleton_append, hclose]

theorem balanced_let {l r : Token} (hl : l.kind = .kwLet ∨ l.kind = .kwLetRec) (hr : r.kind = .kwIn)
    (h : Nested ts) (h' : Balanced us) : Balanced (l :: ts ++ r :: us) := by
  intro d rest
  have hopen : letRecNames d false (l :: (ts ++ r :: us ++ rest)) =
      letRecNames (d + 1) false (ts ++ r :: us ++ rest) := by
    rw [letRecNames]
    rcases hl with hl | hl <;> rw [hl]
  have hclose : letRecNames (d + 1) false (r :: (us ++ rest)) = letRecNames d false (us ++ rest) := by
    rw [letRecNames, hr]
    rfl
  rw [cons_append, cons_append, hopen, append_assoc, h d, cons_append, hclose,
    h' d]

/-!
## What is read
-/

/-- Tokens that end with the end of the input. -/
def Terminated : List Token → Prop
  | [] => False
  | [t] => t.kind = .endOfInput
  | _ :: t :: ts => Terminated (t :: ts)

theorem Terminated.tail (h : Terminated (t :: ts)) (ht : t.kind ≠ .endOfInput) : Terminated ts := by
  cases ts with
  | nil => exact absurd h ht
  | cons t' ts => exact h

theorem Terminated.of_append (h : Terminated (ts ++ us)) (hts : ∀ t ∈ ts, t.kind ≠ .endOfInput) :
    Terminated us := by
  induction ts with
  | nil => exact h
  | cons t ts ih =>
    exact ih (Terminated.tail h (hts t mem_cons_self)) fun t ht => hts t (mem_cons_of_mem _ ht)

variable {α β : Type} {D : Name → Prop} {size : Nat}

/-- **What `x` reads**: some of the tokens, never the last one. References to top-level names are
noted, and if `D` holds of those, `Q` holds of the tokens and the result. -/
def Reads (D : Name → Prop) (size : Nat) (x : ReadM α) (Q : List Token → α → Prop) : Prop :=
  ∀ s a s', x s = .ok (a, s') → Terminated s.tokens → (∀ t ∈ s.tokens, t.Named) →
    s.tokens.length ≤ size + 1 → ∃ used, s.tokens = used ++ s'.tokens ∧ Terminated s'.tokens ∧ s.globals ⊆ s'.globals ∧
      ((∀ g ∈ s'.globals, D g.1) → Q used a)

namespace Reads

variable {x : ReadM α} {f : α → ReadM β} {Q Q' : List Token → α → Prop} {R : List Token → β → Prop}

theorem pure {a : α} (h : Q [] a) : Reads D size (Pure.pure a) Q := by
  intro s a' s' hx ht _ _
  cases hx
  exact ⟨[], rfl, ht, List.Subset.refl _, fun _ => h⟩

theorem throw (e : ReadError) : Reads D size (MonadExcept.throw e : ReadM α) Q :=
  fun _ _ _ h => absurd h throw_ne_ok

theorem throw_bind (e : ReadError) {g : α → ReadM β} :
    Reads D size (MonadExcept.throw e >>= g) R := by
  intro s b s' h
  obtain ⟨_, _, hthrow, -⟩ := bind_eq_ok.1 h
  exact absurd hthrow throw_ne_ok

theorem mono (h : Reads D size x Q) (hQ : ∀ used a, Q used a → Q' used a) : Reads D size x Q' := by
  intro s a s' hx ht hn hlen
  obtain ⟨used, htok, ht', hsub, hq⟩ := h s a s' hx ht hn hlen
  exact ⟨used, htok, ht', hsub, fun hD => hQ _ _ (hq hD)⟩

/-- **One after the other.** What follows may use what is known of the first result. -/
theorem bind (hx : Reads D size x Q)
    (hf : ∀ a, Reads D size (f a) fun used' b => ∀ used, Q used a → R (used ++ used') b) :
    Reads D size (x >>= f) R := by
  intro s b s' h ht hn hlen
  obtain ⟨a, s1, ha, hb⟩ := bind_eq_ok.1 h
  obtain ⟨used, htok, ht1, hsub, hq⟩ := hx s a s1 ha ht hn hlen
  have hn1 : ∀ t ∈ s1.tokens, t.Named := fun t h => hn t (by rw [htok]; exact mem_append_right _ h)
  have hlen1 : s1.tokens.length ≤ size + 1 := by
    rw [htok, length_append] at hlen
    omega
  obtain ⟨used', htok', ht', hsub', hr⟩ := hf a s1 b s' hb ht1 hn1 hlen1
  refine ⟨used ++ used', ?_, ht', List.Subset.trans hsub hsub', fun hD => hr hD used (hq fun g hg => hD g (hsub' hg))⟩
  rw [htok, htok', append_assoc]

theorem bind_of_any {P : α → Prop} {T : β → Prop} (hx : Reads (fun _ => True) size x fun _ a => P a)
    (hf : ∀ a, P a → Reads D size (f a) fun _ b => T b) :
    Reads D size (x >>= f) fun _ b => T b := by
  intro s b s' h ht hn hlen
  obtain ⟨a, s1, ha, hb⟩ := bind_eq_ok.1 h
  obtain ⟨used, htok, ht1, hsub, hP⟩ := hx s a s1 ha ht hn hlen
  have hn1 : ∀ t ∈ s1.tokens, t.Named := fun t h => hn t (by rw [htok]; exact mem_append_right _ h)
  have hlen1 : s1.tokens.length ≤ size + 1 := by
    rw [htok, length_append] at hlen
    omega
  obtain ⟨used', htok', ht', hsub', hr⟩ := hf a (hP fun _ _ => trivial) s1 b s' hb ht1 hn1 hlen1
  refine ⟨used ++ used', ?_, ht', List.Subset.trans hsub hsub', hr⟩
  rw [htok, htok', append_assoc]

theorem lookahead {g : Pending → ReadM β}
    (h : ∀ s, Reads D size (g s) fun used b => ∀ rest, s.tokens = used ++ rest → R used b) :
    Reads D size (get >>= g) R := by
  intro s b s' hg ht hn hlen
  obtain ⟨used, htok, ht', hsub, hr⟩ := h s s b s' hg ht hn hlen
  exact ⟨used, htok, ht', hsub, fun hD => hr hD s'.tokens htok⟩

theorem sized (h : Reads D size x Q) : Reads D size x fun used a => used.length ≤ size ∧ Q used a := by
  intro s a s' hx ht hn hlen
  obtain ⟨used, htok, ht', hsub, hq⟩ := h s a s' hx ht hn hlen
  refine ⟨used, htok, ht', hsub, fun hD => ⟨?_, hq hD⟩⟩
  have hpos : 0 < s'.tokens.length := by
    rw [length_pos_iff]
    intro hnil
    rw [hnil] at ht'
    exact ht'
  rw [htok, length_append] at hlen
  omega

theorem named (h : Reads D size x Q) :
    Reads D size x fun used a => (∀ t ∈ used, t.Named) ∧ Q used a := by
  intro s a s' hx ht hn hlen
  obtain ⟨used, htok, ht', hsub, hq⟩ := h s a s' hx ht hn hlen
  refine ⟨used, htok, ht', hsub, fun hD => ⟨fun t h => hn t ?_, hq hD⟩⟩
  rw [htok]
  exact mem_append_left _ h

end Reads

theorem reads_get : Reads D size (get : ReadM Pending) fun used _ => used = [] := by
  intro s a s' h ht _ _
  cases h
  exact ⟨[], rfl, ht, List.Subset.refl _, fun _ => rfl⟩

theorem reads_peek : Reads D size peek fun used _ => used = [] := by
  refine reads_get.bind fun s => .pure ?_
  rintro _ rfl
  rfl

theorem reads_advance :
    Reads D size advance fun used t => t.kind ≠ .endOfInput → used = [t] := by
  intro s t s' h ht _ _
  obtain ⟨tokens, globals⟩ := s
  match tokens with
  | [] => exact ht.elim
  | [t'] =>
    cases h
    exact ⟨[], rfl, ht, List.Subset.refl _, fun _ hk => absurd ht hk⟩
  | t' :: t'' :: ts =>
    cases h
    exact ⟨[t], rfl, ht, List.Subset.refl _, fun _ _ => rfl⟩

theorem reads_unexpected (what : Expectation) (t : Token) {Q : List Token → α → Prop} :
    Reads D size (unexpected what t) Q := .throw _

theorem reads_expect (hk : kind ≠ .endOfInput) :
    Reads D size (expect kind) fun used t => used = [t] ∧ t.kind = kind := by
  refine reads_advance.bind fun t => ?_
  split
  · rename_i ht
    refine .pure fun used hused => ?_
    rw [append_nil]
    exact ⟨hused (ht ▸ hk), ht⟩
  · exact reads_unexpected _ _

theorem reads_accept (hk : kind ≠ .endOfInput) :
    Reads D size (accept kind) fun used a =>
      if a then ∃ t, used = [t] ∧ t.kind = kind else used = [] := by
  intro s a s' h ht _ _
  obtain ⟨tokens, globals⟩ := s
  obtain ⟨t, s1, hpeek, h⟩ := bind_eq_ok.1 h
  cases hpeek
  split at h
  · rename_i hkind
    -- the token that was looked at is the one that is taken
    match tokens with
    | [] => exact ht.elim
    | [t] => exact absurd (hkind.symm.trans ht) hk
    | t :: t' :: ts =>
      cases h
      exact ⟨[t], rfl, ht, List.Subset.refl _, fun _ => ⟨t, rfl, hkind⟩⟩
  · cases h
    exact ⟨[], rfl, ht, List.Subset.refl _, fun _ => rfl⟩

theorem reads_params :
    Reads D size params fun used xs => (∀ x ∈ xs, Plain x) ∧ ∀ t ∈ used, t.kind = .identifier := by
  intro s xs s' h ht hn _
  cases h
  have hparams : ∀ t ∈ s.tokens.takeWhile (fun t => decide (t.kind = .identifier)),
      t.kind = .identifier := fun t ht => by simpa using mem_takeWhile_imp ht
  refine ⟨s.tokens.takeWhile fun t => decide (t.kind = .identifier),
    takeWhile_append_dropWhile.symm, ?_, List.Subset.refl _, fun _ => ⟨?_, hparams⟩⟩
  have hsplit : s.tokens.takeWhile (fun t => decide (t.kind = .identifier)) ++
      s.tokens.dropWhile (fun t => decide (t.kind = .identifier)) = s.tokens :=
    takeWhile_append_dropWhile
  · rw [← hsplit] at ht
    refine ht.of_append fun t hmem heq => ?_
    rw [hparams t hmem] at heq
    cases heq
  · intro x hx
    obtain ⟨t, hmem, rfl⟩ := mem_map.1 hx
    exact hn t (takeWhile_subset _ hmem) (hparams t hmem)

theorem balanced_identifiers (h : ∀ t ∈ ts, t.kind = .identifier) : Balanced ts := by
  induction ts with
  | nil => exact .nil
  | cons t ts ih =>
    exact (balanced_plain (h t mem_cons_self) rfl).append
      (ih fun t ht => h t (mem_cons_of_mem _ ht))

/-!
## Constructors
-/

/-- **Declarations in order**: a constructor is listed by its type, at the position of its tag. -/
structure Declared.Consistent (size : Nat) (declared : Declared) : Prop where
  listed : ∀ c ∈ declared.constructors, ∃ d i, declared.datatypes[c.2.type]? = some d ∧
    d.constructors[i]? = some (c.1, c.2.arity) ∧ c.2.tag = UInt32.ofNat i
  size_le : ∀ d ∈ declared.datatypes, d.constructors.length ≤ size

/-- The constructor of an alternative is one of its type, and if tags are not too small, it is the one
with this tag. -/
theorem Declared.Consistent.fits (h : declared.Consistent size) {name : Name}
    (hmem : (name, info) ∈ declared.constructors) :
    ∃ k, ((declared.datatypes[info.type]?.map DataDecl.arities).getD [])[info.tag.toNat]? = some k ∧
      (size < UInt32.size → info.arity = k) := by
  obtain ⟨d, i, hd, hi, htag⟩ := h.listed _ hmem
  have hlt : i < d.constructors.length := (List.getElem?_eq_some_iff.1 hi).1
  have hsize := h.size_le d (mem_of_getElem? hd)
  simp only at hd hi htag
  rw [hd, htag, UInt32.toNat_ofNat']
  have hmod : i % 2 ^ 32 ≤ i := Nat.mod_le _ _
  obtain ⟨c, hc⟩ : ∃ c, d.constructors[i % 2 ^ 32]? = some c :=
    ⟨_, getElem?_eq_getElem (lt_of_le_of_lt hmod hlt)⟩
  refine ⟨c.2, ?_, fun hsmall => ?_⟩
  · show (d.constructors.map Prod.snd)[i % 2 ^ 32]? = some c.2
    rw [getElem?_map, hc]
    rfl
  · rw [Nat.mod_eq_of_lt (show i < 2 ^ 32 from lt_trans (lt_of_lt_of_le hlt hsize) hsmall), hi] at hc
    cases hc
    rfl

theorem reads_lookupConstructor (declared : Declared) (t : Token) :
    Reads D size (lookupConstructor declared t) fun used info =>
      used = [] ∧ (t.lexeme, info) ∈ declared.constructors := by
  unfold lookupConstructor
  split
  · rename_i hlookup
    exact .pure ⟨rfl, mem_of_lookup hlookup⟩
  · exact .throw _

/-!
## Expressions
-/

section Forms

variable {nested : Scope → ReadM Expr} {sc : Scope}

/-- An expression as it is read in a scope. Its alternatives fit the constructors if these are declared in
order. -/
structure InPlace (D : Name → Prop) (size : Nat) (sc : Scope) (e : Expr) : Prop where
  inScope : sc.declared.Consistent size → e.Scoped D size sc.locals
  spelled : e.Spelled Plain
  resolved : e.Resolved sc.locals

theorem InPlace.lams (h : InPlace D size (sc.bind xs) body) (hxs : ∀ x ∈ xs, Plain x) :
    InPlace D size sc (.lams xs body) :=
  ⟨fun hdecl => (h.inScope hdecl).lams, h.spelled.lams hxs, h.resolved.lams⟩

theorem InPlace.app {f a : Expr} (hf : InPlace D size sc f) (ha : InPlace D size sc a) :
    InPlace D size sc (.app f a) :=
  ⟨fun hdecl => .app (hf.inScope hdecl) (ha.inScope hdecl), .app hf.spelled ha.spelled,
    .app hf.resolved ha.resolved⟩

theorem InPlace.letIn {x : Name} {rhs body : Expr} (hrhs : InPlace D size sc rhs) (hx : Plain x)
    (hbody : InPlace D size (sc.bind [x]) body) : InPlace D size sc (.letIn x rhs body) :=
  ⟨fun hdecl => .letIn (hrhs.inScope hdecl) (hbody.inScope hdecl), .letIn hrhs.spelled hx hbody.spelled,
    .letIn hrhs.resolved hbody.resolved⟩

/-- `nested` reads expressions in their scope. -/
def ReadsScoped (D : Name → Prop) (size : Nat) (nested : Scope → ReadM Expr) : Prop :=
  ∀ sc, Reads D size (nested sc) fun used e => Balanced used ∧ InPlace D size sc e

/-- The alternatives that were read are for constructors of one type, with their fields. -/
def Alternatives.Sound (D : Name → Prop) (size : Nat) (sc : Scope) (acc : Alternatives) : Prop :=
  (∀ alt ∈ acc.alts, (∃ name info, (name, info) ∈ sc.declared.constructors ∧
      acc.type = some info.type ∧ alt.tag = info.tag ∧ alt.binders.length = info.arity.toNat) ∧
    (∀ x ∈ alt.binders, Plain x) ∧ InPlace D size (sc.bind alt.binders) alt.body) ∧
  ∀ e, acc.other = some e → InPlace D size sc e

variable (hnested : ReadsScoped D size nested)

include hnested

theorem reads_lambda :
    Reads D size (lambda nested sc) fun used e => Balanced used ∧ InPlace D size sc e := by
  refine (reads_expect (by decide)).bind fun t => reads_params.bind fun xs => ?_
  split
  · exact reads_advance.bind fun _ => .throw_bind _
  · refine (reads_expect (by decide)).bind fun arrow => (hnested (sc.bind xs)).bind fun body =>
      .pure ?_
    rintro us ⟨hbody, hplace⟩ _ ⟨rfl, harrow⟩ ts ⟨hplain, hxs⟩ _ ⟨rfl, ht⟩
    refine ⟨?_, hplace.lams hplain⟩
    exact (balanced_plain ht rfl).append ((balanced_identifiers hxs).append
      ((balanced_plain harrow rfl).append (hbody.append .nil)))

theorem reads_binding :
    Reads D size (binding nested sc) fun used b => (InPlace D size sc b.2 ∧ Plain b.1) ∧
      ∃ t ts, used = t :: ts ∧ t.kind = .identifier ∧ t.lexeme = b.1 ∧ Balanced ts := by
  refine (reads_expect (by decide)).named.bind fun x => reads_params.bind fun xs =>
    (reads_expect (by decide)).bind fun eq => (hnested (sc.bind xs)).bind fun rhs => .pure ?_
  rintro us ⟨hrhs, hplace⟩ _ ⟨rfl, heq⟩ ts ⟨hplain, hxs⟩ _ ⟨hname, rfl, hx⟩
  refine ⟨⟨hplace.lams hplain, hname x mem_cons_self hx⟩, x, _, rfl, hx, rfl, ?_⟩
  exact (balanced_identifiers hxs).append ((balanced_plain heq rfl).append (hrhs.append .nil))

omit hnested in
theorem nested_binding {used : List Token} {x : Name}
    (h : ∃ t ts, used = t :: ts ∧ t.kind = .identifier ∧ t.lexeme = x ∧ Balanced ts) :
    Nested used := by
  obtain ⟨t, ts, rfl, ht, -, hts⟩ := h
  exact ((balanced_plain ht rfl).append hts).nested

theorem reads_letRest (bound : Nat) :
    Reads D size (letRest nested sc bound) fun used e => InPlace D size sc e ∧
      ∃ ts t us, used = ts ++ t :: us ∧ t.kind = .kwIn ∧ Nested ts ∧ Balanced us := by
  induction bound generalizing sc with
  | zero => exact reads_peek.bind fun t => reads_unexpected _ t
  | succ bound ih =>
    refine (reads_binding hnested).bind fun b => ?_
    obtain ⟨x, rhs⟩ := b
    refine (reads_accept (by decide)).bind fun more => ?_
    split
    · refine (@ih (sc.bind [x])).bind fun body => .pure ?_
      rintro _ ⟨hbody, ts, t, us, rfl, ht, hts, hus⟩ _ ⟨semi, rfl, hsemi⟩ bs ⟨hrhs, hbs⟩
      refine ⟨hrhs.1.letIn hrhs.2 hbody, bs ++ ([semi] ++ ts), t, us, by simp, ht, ?_, hus⟩
      exact (nested_binding hbs).append ((nested_semicolon hsemi).append hts)
    · refine (reads_expect (by decide)).bind fun t => (hnested (sc.bind [x])).bind fun body =>
        .pure ?_
      rintro us ⟨hus, hbody⟩ _ ⟨rfl, ht⟩ _ rfl bs ⟨hrhs, hbs⟩
      exact ⟨hrhs.1.letIn hrhs.2 hbody, bs, t, us, by simp, ht, nested_binding hbs, hus⟩

/-- **The lookahead finds the names that a group binds.** -/
theorem reads_letRecBindings (bound : Nat) :
    Reads D size (letRecBindings nested sc bound) fun used binds =>
      (∀ b ∈ binds, InPlace D size sc b.2 ∧ Plain b.1) ∧ binds.length ≤ used.length ∧ Nested used ∧
        ∀ t rest, t.kind = .kwIn → letRecNames 0 true (used ++ t :: rest) = binds.map Prod.fst := by
  induction bound with
  | zero => exact reads_peek.bind fun t => reads_unexpected _ t
  | succ bound ih =>
    refine (reads_binding hnested).bind fun b => (reads_accept (by decide)).bind fun more => ?_
    -- the name of a binding at the outermost level is found, and its right hand side passed over
    have hname : ∀ bs rest, (∃ t ts, bs = t :: ts ∧ t.kind = .identifier ∧ t.lexeme = b.1 ∧
        Balanced ts) → letRecNames 0 true (bs ++ rest) = b.1 :: letRecNames 0 false rest := by
      rintro _ rest ⟨t, ts, rfl, ht, hlexeme, hts⟩
      rw [cons_append, letRecNames, ht]
      simp only [beq_self_eq_true, Bool.and_self, if_true, hlexeme]
      rw [hts 0]
    split
    · refine ih.bind fun binds => .pure ?_
      rintro us ⟨hbinds, hlen, hus, hnames⟩ _ ⟨semi, rfl, hsemi⟩ bs ⟨hrhs, hbs⟩
      refine ⟨forall_mem_cons.2 ⟨hrhs, hbinds⟩, by simp; omega, ?_, fun t rest ht => ?_⟩
      · exact (nested_binding hbs).append ((nested_semicolon hsemi).append (hus.append fun d => .nil _))
      · rw [append_assoc, hname _ _ hbs, append_nil, append_assoc,
          singleton_append, letRecNames, hsemi]
        simp only [beq_self_eq_true]
        rw [hnames t rest ht]
        rfl
    · refine .pure ?_
      rintro _ rfl bs ⟨hrhs, hbs⟩
      refine ⟨by simpa using hrhs, ?_, (nested_binding hbs).append fun d => .nil _, fun t rest ht => ?_⟩
      · obtain ⟨t, ts, rfl, -⟩ := hbs
        simp
      · rw [append_nil, append_nil, hname _ _ hbs, letRecNames, ht]
        rfl

theorem reads_letRec (bound : Nat) :
    Reads D size (letRec nested sc bound) fun used e =>
      Balanced used ∧ InPlace D size sc e := by
  refine (reads_expect (by decide)).bind fun l => .lookahead fun s => ?_
  set names := letRecNames 0 true s.tokens
  refine (reads_letRecBindings hnested bound).sized.bind fun binds =>
    (reads_expect (by decide)).bind fun t => (hnested (sc.bind names)).bind fun body => .pure ?_
  rintro us ⟨hus, hbody⟩ _ ⟨rfl, ht⟩ ts ⟨hsize, hbinds, hlen, hts, hnames⟩ rest htokens _ ⟨rfl, hl⟩
  have heq : names = binds.map Prod.fst := by
    rw [← hnames t (us ++ rest) ht, show names = letRecNames 0 true s.tokens from rfl, htokens]
    simp
  have hsc : (sc.bind names).locals = binds.map Prod.fst ++ sc.locals := by rw [← heq]; rfl
  refine ⟨?_, fun hdecl => .letRec (fun _ hs => Option.some.inj hs ▸ hlen.trans hsize)
      (fun b hb => hsc ▸ (hbinds b hb).1.inScope hdecl) (hsc ▸ hbody.inScope hdecl),
    .letRec (fun b hb => (hbinds b hb).2) (fun b hb => (hbinds b hb).1.spelled) hbody.spelled,
    .letRec (fun b hb => hsc ▸ (hbinds b hb).1.resolved) (hsc ▸ hbody.resolved)⟩
  have hbal := balanced_let (.inr hl) ht hts hus
  simpa using hbal

/-- An alternative binds its names in its own body only. -/
theorem reads_alternative (acc : Alternatives) :
    Reads D size (alternative nested sc acc) fun used acc' =>
      Balanced used ∧ (acc.Sound D size sc → acc'.Sound D size sc) := by
  refine (reads_expect (by decide)).bind fun con => (reads_lookupConstructor _ _).bind fun info => ?_
  -- what is read once the type is checked
  have hrest : (∀ d, acc.type = some d → d = info.type) → Reads D size (do
      let xs ← params
      if xs.length ≠ info.arity.toNat then
        fail con.pos (.fieldCount con.lexeme info.arity.toNat xs.length)
      let _ ← expect .arrow
      let body ← nested (sc.bind xs)
      return ({ acc with type := some info.type, alts := ⟨info.tag, xs, body⟩ :: acc.alts } :
        Alternatives)) fun used' acc' => ∀ used,
      used = [] ∧ (con.lexeme, info) ∈ sc.declared.constructors → ∀ used_1,
        used_1 = [con] ∧ con.kind = .constructor →
        Balanced (used_1 ++ (used ++ used')) ∧ (acc.Sound D size sc → acc'.Sound D size sc) := by
    intro htype
    refine reads_params.bind fun xs => ?_
    split
    · exact .throw_bind _
    rename_i hfields
    refine (reads_expect (by decide)).bind fun arrow => (hnested (sc.bind xs)).bind fun body =>
      .pure ?_
    rintro us ⟨hus, hbody⟩ _ ⟨rfl, harrow⟩ ts ⟨hplain, hts⟩ _ ⟨rfl, hinfo⟩ _ ⟨rfl, hcon⟩
    refine ⟨?_, fun hacc => ⟨forall_mem_cons.2 ⟨?_, fun alt halt => ?_⟩, hacc.2⟩⟩
    · exact (balanced_plain hcon rfl).append (Balanced.nil.append ((balanced_identifiers hts).append
        ((balanced_plain harrow rfl).append (hus.append .nil))))
    · exact ⟨⟨con.lexeme, info, hinfo, rfl, rfl, not_not.1 hfields⟩, hplain, hbody⟩
    · obtain ⟨⟨name, info', hinfo', htype', htag⟩, hplace⟩ := hacc.1 alt halt
      exact ⟨⟨name, info', hinfo', congrArg some (htype _ htype').symm, htag⟩, hplace⟩
  split
  · rename_i d hd
    split
    · exact .throw_bind _
    · rename_i hne
      exact hrest fun d' hd' => by rw [hd] at hd'; cases hd'; exact not_not.1 hne
  · rename_i hnone
    exact hrest fun d' hd' => by rw [hnone] at hd'; cases hd'

/-- Alternatives read are bracketed well and sound for their datatype. -/
theorem reads_alternatives (acc : Alternatives) (bound : Nat) :
    Reads D size (alternatives nested sc acc bound) fun used acc' =>
      Nested used ∧ (acc.Sound D size sc → acc'.Sound D size sc) := by
  induction bound generalizing acc with
  | zero => exact reads_peek.bind fun t => reads_unexpected _ t
  | succ bound ih =>
    refine reads_peek.bind fun t => ?_
    split
    · refine .pure ?_
      rintro _ rfl
      exact ⟨fun d => .nil _, id⟩
    -- what is read after an alternative
    have hrest : ∀ acc', Reads D size (do
        if ← accept .semicolon then alternatives nested sc acc' bound else return acc')
        fun used acc'' => Nested used ∧ (acc'.Sound D size sc → acc''.Sound D size sc) := by
      intro acc'
      refine (reads_accept (by decide)).bind fun more => ?_
      split
      · refine (ih acc').mono ?_
        rintro us acc'' ⟨hus, hacc⟩ _ ⟨semi, rfl, hsemi⟩
        exact ⟨(nested_semicolon hsemi).append hus, hacc⟩
      · refine .pure ?_
        rintro _ rfl
        exact ⟨fun d => .nil _, id⟩
    refine (reads_accept (by decide)).bind fun default => ?_
    split
    · refine (reads_expect (by decide)).bind fun arrow => (hnested sc).bind fun e =>
        (Reads.pure (Q := fun used acc' => used = [] ∧ acc' = { acc with other := some e })
          ⟨rfl, rfl⟩).bind fun acc' => (hrest acc').mono ?_
      rintro us acc'' ⟨hus, hacc''⟩ _ ⟨rfl, rfl⟩ ts ⟨hts, he⟩ _ ⟨rfl, harrow⟩ _ ⟨u, rfl, hu⟩ _ rfl
      refine ⟨?_, fun hacc => hacc'' ⟨hacc.1, fun e' he' => ?_⟩⟩
      · exact (balanced_plain hu rfl).nested.append ((balanced_plain harrow rfl).nested.append
          (hts.nested.append hus))
      · cases he'
        exact he
    · refine (reads_alternative hnested acc).bind fun acc' => (hrest acc').mono ?_
      rintro us acc'' ⟨hus, hacc''⟩ ts ⟨hts, hacc'⟩ _ rfl _ rfl
      exact ⟨hts.nested.append hus, fun hacc => hacc'' (hacc' hacc)⟩

/-- A case is read bracketed well, and with every name in scope. -/
theorem reads_caseOf (bound : Nat) :
    Reads D size (caseOf nested sc bound) fun used e =>
      Balanced used ∧ InPlace D size sc e := by
  refine (reads_expect (by decide)).bind fun kw => (hnested sc).bind fun scrut =>
    (reads_expect (by decide)).bind fun of => (reads_expect (by decide)).bind fun l =>
    (reads_alternatives hnested {} bound).bind fun acc => (reads_expect (by decide)).bind fun r => ?_
  split
  · exact .throw _
  rename_i d htype
  refine .pure ?_
  rintro _ ⟨rfl, hr⟩ ts ⟨hts, hacc⟩ _ ⟨rfl, hl⟩ _ ⟨rfl, hof⟩ us ⟨hus, hscrut⟩ _ ⟨rfl, hkw⟩
  have hempty : Alternatives.Sound D size sc {} :=
    ⟨forall_mem_nil _, fun e he => nomatch he⟩
  obtain ⟨halts, hother⟩ := hacc hempty
  refine ⟨?_, fun hdecl => .caseOf (hscrut.inScope hdecl) (fun s hs alt halt => ?_) (fun alt halt => ?_)
      fun e he => (hother e he).inScope hdecl,
    .caseOf hscrut.spelled (fun alt halt => ?_) (fun alt halt => ?_) fun e he => (hother e he).spelled,
    .caseOf hscrut.resolved (fun alt halt => ?_) fun e he => (hother e he).resolved⟩
  · have hbrackets := balanced_brackets (.inr hl) (.inr hr) hts
    exact (balanced_plain hkw rfl).append (hus.append ((balanced_plain hof rfl).append
      (by simpa using hbrackets)))
  · obtain ⟨⟨name, info, hinfo, htype', htag, hfields⟩, -⟩ := halts alt (mem_reverse.1 halt)
    obtain rfl : d = info.type := Option.some.inj (htype.symm.trans htype')
    obtain ⟨k, hk, hsmall⟩ := hdecl.fits hinfo
    obtain rfl := Option.some.inj hs
    exact ⟨k, by rw [htag]; exact hk, fun hsize => by rw [hfields, hsmall hsize]⟩
  · exact (halts alt (mem_reverse.1 halt)).2.2.inScope hdecl
  · exact (halts alt (mem_reverse.1 halt)).2.1
  · exact (halts alt (mem_reverse.1 halt)).2.2.spelled
  · exact (halts alt (mem_reverse.1 halt)).2.2.resolved

omit hnested in
theorem reads_note (g : Name × Position) :
    Reads D size (modify fun s => { s with globals := g :: s.globals }) fun used _ =>
      used = [] ∧ D g.1 := by
  intro s a s' h ht _ _
  cases h
  exact ⟨[], rfl, ht, subset_cons_self _ _, fun hD => ⟨rfl, hD g mem_cons_self⟩⟩

/-- An atom read is in scope: one case for each first token. -/
theorem reads_atom :
    Reads D size (atom nested sc) fun used e => Balanced used ∧ InPlace D size sc e := by
  refine reads_advance.bind fun t => ?_
  generalize hkind : t.kind = kind
  -- an atom of one token, of which nothing more is read
  have hleaf : ∀ e : Expr, plain kind = true → InPlace D size sc e →
      Reads D size (Pure.pure e) fun used' b => ∀ used, (kind ≠ .endOfInput → used = [t]) →
        Balanced (used ++ used') ∧ InPlace D size sc b := by
    intro e hplain he
    refine .pure fun used h => ⟨?_, he⟩
    have hused : kind ≠ .endOfInput := by
      rintro rfl
      cases hplain
    rw [h hused]
    exact (balanced_plain hkind hplain).append .nil
  cases kind <;> simp only
  case identifier =>
    split
    · rename_i hmem
      exact hleaf _ rfl ⟨fun _ => .var hmem, .var _, .var hmem⟩
    · rename_i hmem
      refine (reads_note _).bind fun _ => .pure ?_
      rintro _ ⟨rfl, hD⟩ used h
      rw [h (by decide)]
      exact ⟨(balanced_plain hkind rfl).append .nil, fun _ => .global hD, .global _, .global hmem⟩
  case constructor =>
    refine (reads_lookupConstructor _ _).bind fun info => .pure ?_
    rintro _ ⟨rfl, -⟩ used h
    rw [h (by decide)]
    exact ⟨(balanced_plain hkind rfl).append .nil, fun _ => .con _ _, .con _ _, .con _ _⟩
  case int n => exact hleaf _ rfl ⟨fun _ => .lit _, .lit _, .lit _⟩
  case double x => exact hleaf _ rfl ⟨fun _ => .lit _, .lit _, .lit _⟩
  case char c => exact hleaf _ rfl ⟨fun _ => .lit _, .lit _, .lit _⟩
  case string x => exact hleaf _ rfl ⟨fun _ => .lit _, .lit _, .lit _⟩
  case primitive name =>
    split
    · exact hleaf _ rfl ⟨fun _ => .prim _, .prim _, .prim _⟩
    · exact hleaf _ rfl ⟨fun _ => .comb _, .comb _, .comb _⟩
    · exact .throw _
  case leftParen =>
    refine (hnested sc).bind fun e => (reads_expect (by decide)).bind fun r => .pure ?_
    rintro _ ⟨rfl, hr⟩ ts ⟨hts, he⟩ used h
    rw [h (by decide)]
    have hbrackets := balanced_brackets (.inl hkind) (.inl hr) hts.nested
    exact ⟨by simpa using hbrackets, he⟩
  all_goals exact reads_unexpected _ _

theorem reads_arguments (f : Expr) (bound : Nat) :
    Reads D size (arguments nested sc f bound) fun used e =>
      Balanced used ∧ (InPlace D size sc f → InPlace D size sc e) := by
  induction bound generalizing f with
  | zero => exact reads_peek.bind fun t => reads_unexpected _ t
  | succ bound ih =>
    refine reads_peek.bind fun t => ?_
    simp only
    split
    · refine (reads_atom hnested).bind fun a => (ih (.app f a)).mono ?_
      rintro us e ⟨hus, he⟩ ts ⟨hts, ha⟩ _ rfl
      exact ⟨hts.append hus, fun hf => he (hf.app ha)⟩
    split
    · refine (hnested sc).bind fun a => .pure ?_
      rintro ts ⟨hts, ha⟩ _ rfl
      exact ⟨hts.append .nil, fun hf => hf.app ha⟩
    · refine .pure ?_
      rintro _ rfl
      exact ⟨.nil, id⟩

theorem reads_form (bound : Nat) :
    Reads D size (form nested bound sc) fun used e =>
      Balanced used ∧ InPlace D size sc e := by
  refine reads_peek.bind fun t => ?_
  have hmono : ∀ {x : ReadM Expr},
      Reads D size x (fun used e => Balanced used ∧ InPlace D size sc e) →
      Reads D size x fun used' e => ∀ used, used = [] →
        Balanced (used ++ used') ∧ InPlace D size sc e := by
    intro x hx
    refine hx.mono ?_
    rintro used e h _ rfl
    exact h
  split
  · exact hmono (reads_lambda hnested)
  · refine hmono ((reads_expect (by decide)).bind fun l => (reads_letRest hnested bound).mono ?_)
    rintro _ e ⟨he, ts, t, us, rfl, ht, hts, hus⟩ _ ⟨rfl, hl⟩
    exact ⟨balanced_let (.inl hl) ht hts hus, he⟩
  · exact hmono (reads_letRec hnested bound)
  · exact hmono (reads_caseOf hnested bound)
  · refine hmono ((reads_atom hnested).bind fun f =>
      (reads_arguments hnested f bound).mono ?_)
    rintro us e ⟨hus, he⟩ ts ⟨hts, hf⟩
    exact ⟨hts.append hus, he hf⟩

end Forms

/-- **An expression that is read is scoped and resolved**, and its binders are plain. -/
theorem reads_readExpr (bound : Nat) : ReadsScoped D size (readExpr bound) := by
  induction bound with
  | zero => exact fun sc => reads_peek.bind fun t => reads_unexpected _ t
  | succ bound ih => exact fun sc => reads_form ih bound

/-!
## Declarations
-/

/-- What is known of constructors `cs` that were read, numbered from `tag` on. -/
def Numbered (index tag : Nat) (known : List (Name × ConstructorInfo))
    (r : List (Name × UInt32) × List (Name × ConstructorInfo)) : Prop :=
  ∀ c ∈ r.2, c ∈ known ∨ ∃ i, r.1[i]? = some (c.1, c.2.arity) ∧
    c.2.tag = UInt32.ofNat (tag + i) ∧ c.2.type = index

/-- Constructors are numbered in order, and new. -/
theorem reads_readConstructors (index : Nat) (known : List (Name × ConstructorInfo))
    (tag bound : Nat) :
    Reads D size (readConstructors index known tag bound) fun used r =>
      r.1.length ≤ used.length ∧ Numbered index tag known r := by
  induction bound generalizing known tag with
  | zero => exact reads_peek.bind fun t => reads_unexpected _ t
  | succ bound ih =>
    refine (reads_expect (by decide)).bind fun con => reads_peek.bind fun t => ?_
    -- the rest, once the number of fields is known
    have hrest : ∀ arity, Reads D size (do
        if (known.lookup con.lexeme).isSome then fail con.pos (.constructorTwice con.lexeme)
        let known := (con.lexeme, ⟨UInt32.ofNat tag, arity, index⟩) :: known
        if ← accept .bar then
          let r ← readConstructors index known (tag + 1) bound
          return ((con.lexeme, arity) :: r.1, r.2)
        return ([(con.lexeme, arity)], known)) fun used r =>
        r.1.length ≤ used.length + 1 ∧ Numbered index tag known r := by
      intro arity
      split
      · exact .throw_bind _
      refine (reads_accept (by decide)).bind fun more => ?_
      split
      · refine (ih _ _).bind fun r => .pure ?_
        rintro us ⟨hlen, hnum⟩ _ ⟨bar, rfl, hbar⟩
        refine ⟨by simp; omega, fun c hc => ?_⟩
        rcases hnum c hc with hc | ⟨i, hi, htag, htype⟩
        · rcases mem_cons.1 hc with rfl | hc
          · exact .inr ⟨0, rfl, rfl, rfl⟩
          · exact .inl hc
        · exact .inr ⟨i + 1, hi, by rw [htag, Nat.add_assoc, Nat.add_comm 1], htype⟩
      · refine .pure ?_
        rintro _ rfl
        refine ⟨by simp, fun c hc => ?_⟩
        rcases mem_cons.1 hc with rfl | hc
        · exact .inr ⟨0, rfl, rfl, rfl⟩
        · exact .inl hc
    have hpure : ∀ arity : UInt32, Reads D size (Pure.pure arity) fun used _ => used = [] :=
      fun _ => .pure rfl
    cases t.kind
    case int k =>
      refine reads_advance.bind fun t => ?_
      split
      · refine (hpure _).bind fun arity => (hrest arity).mono ?_
        rintro us r ⟨hlen, hnum⟩ _ rfl ts - _ rfl _ ⟨rfl, -⟩
        exact ⟨by simp; omega, hnum⟩
      · exact .throw_bind _
    all_goals
      refine (hpure 0).bind fun arity => (hrest arity).mono ?_
      rintro us r ⟨hlen, hnum⟩ _ rfl _ rfl _ ⟨rfl, -⟩
      exact ⟨by simp; omega, hnum⟩

theorem reads_readData (h : declared.Consistent size) (bound : Nat) :
    Reads D size (readData declared bound) fun _ declared' => declared'.Consistent size := by
  refine (reads_expect (by decide)).bind fun kw => (reads_expect (by decide)).bind fun name =>
    (reads_expect (by decide)).bind fun eq => (reads_readConstructors _ _ 0 bound).sized.bind fun r =>
    .pure ?_
  rintro us ⟨hsize, hlen, hnum⟩ - - - - - -
  refine ⟨fun c hc => ?_, fun d hd => ?_⟩
  · rcases hnum c hc with hc | ⟨i, hi, htag, htype⟩
    · obtain ⟨d, i, hd, hi, htag⟩ := h.listed c hc
      refine ⟨d, i, ?_, hi, htag⟩
      rw [getElem?_append_left (List.getElem?_eq_some_iff.1 hd).1]
      exact hd
    · refine ⟨⟨name.lexeme, r.1⟩, i, ?_, hi, by rw [htag, Nat.zero_add]⟩
      rw [htype, getElem?_append_right (Nat.le_refl _), Nat.sub_self]
      rfl
  · rcases mem_append.1 hd with hd | hd
    · exact h.size_le d hd
    · rw [mem_singleton.1 hd]
      exact hlen.trans hsize

/-- A definition with plain names, of an expression in its place. -/
structure DefInPlace (D : Name → Prop) (size : Nat) (d : Binding Expr) : Prop where
  inScope : d.body.Scoped D size d.params
  name : Plain d.name
  params : ∀ x ∈ d.params, Plain x
  spelled : d.body.Spelled Plain

theorem reads_readDef (h : declared.Consistent size) (bound : Nat) :
    Reads D size (readDef declared bound) fun _ d => DefInPlace D size d := by
  refine (reads_expect (by decide)).bind fun kw => (reads_expect (by decide)).named.bind fun name =>
    reads_params.bind fun xs => (reads_expect (by decide)).bind fun eq =>
    (reads_readExpr bound ⟨declared, xs⟩).bind fun body => .pure ?_
  rintro us ⟨-, hbody⟩ - - - ⟨hplain, -⟩ _ ⟨hname, rfl, hkind⟩ - -
  exact ⟨hbody.inScope h, hname name mem_cons_self hkind, hplain, hbody.spelled⟩

theorem reads_readItems (exprBound : Nat) (h : declared.Consistent size) (bound : Nat) :
    Reads D size (readItems exprBound declared bound) fun _ r => ∀ d ∈ r.2, DefInPlace D size d := by
  induction bound generalizing declared with
  | zero => exact reads_peek.bind fun t => reads_unexpected _ t
  | succ bound ih =>
    refine reads_peek.bind fun t => ?_
    split
    · exact .mono (.bind_of_any (reads_readData h exprBound) fun declared' h' => ih h')
        fun _ _ hr _ _ => hr
    · refine (reads_readDef h exprBound).bind fun d => (ih h).bind fun r => .pure ?_
      rintro - hr - hd - -
      exact forall_mem_cons.2 ⟨hd, hr⟩
    · exact .pure fun _ _ => forall_mem_nil _
    · exact reads_unexpected _ _

theorem Terminated.cons {t : Token} {ts : List Token} (h : Terminated ts) : Terminated (t :: ts) := by
  cases ts with
  | nil => exact h.elim
  | cons t' ts => exact h

/-- The tokens of a text end with the end of the input, and there is at most one for each
character before. -/
theorem terminated_tokensFrom {line column : Nat} {cs : List Char}
    (h : Scan.tokensFrom line column cs = .ok ts) : Terminated ts ∧ ts.length ≤ cs.length + 1 := by
  fun_induction Scan.tokensFrom line column cs generalizing ts with
  | case1 =>
    cases h
    exact ⟨rfl, Nat.le_refl _⟩
  | case2 => cases h
  | case3 =>
    rename_i rest _ ih
    obtain ⟨hterm, hlen⟩ := ih h
    refine ⟨hterm, hlen.trans ?_⟩
    simp only [rest, length_drop, length_cons]
    omega
  | case4 =>
    rename_i rest _ _ ih
    obtain ⟨hterm, hlen⟩ := ih h
    refine ⟨hterm, hlen.trans ?_⟩
    simp only [rest, length_drop, length_cons]
    omega
  | case5 line column c cs n =>
    rename_i rest _ kind token _ ih
    cases htail : Scan.tokensFrom line (column + 1 + n) rest with
    | error e =>
      rw [htail] at h
      cases h
    | ok us =>
      rw [htail] at h
      cases h
      obtain ⟨hterm, hlen⟩ := ih htail
      refine ⟨hterm.cons, ?_⟩
      simp only [rest, length_drop, length_cons] at hlen ⊢
      omega

end Read

theorem Module.inPlace_of_read (h : Module.read name source = .ok m) :
    ∀ d ∈ m.defs, Read.DefInPlace (· ∈ m.defs.map (·.name)) source.length d := by
  obtain ⟨tokens, htokens, h⟩ := exists_ok_of_bind h
  obtain ⟨⟨⟨datatypes, defs⟩, rest⟩, hread, h⟩ := exists_ok_of_bind h
  obtain ⟨hterm, hlen⟩ := Read.terminated_tokensFrom htokens
  rw [String.length_toList] at hlen
  simp only at h
  split at h
  · cases h
  rename_i hfind
  cases h
  have hempty : Read.Declared.Consistent source.length ⟨[], []⟩ :=
    ⟨forall_mem_nil _, forall_mem_nil _⟩
  obtain ⟨used, -, -, -, hdefs⟩ := Read.reads_readItems _ hempty _ _ _ _ hread hterm
    (named_of_tokenize htokens) hlen
  refine hdefs fun g hg => ?_
  -- every reference that was noted has been looked up
  have hsome := find?_eq_none.1 hfind g (mem_reverse.2 hg)
  rw [Option.isNone_iff_eq_none, Module.get?, find?_eq_none] at hsome
  push Not at hsome
  obtain ⟨d, hd, hname⟩ := hsome
  exact mem_map.2 ⟨d, hd, eq_of_beq hname⟩

/-- **The definitions of a module that is read are scoped**: every variable is bound by an enclosing
parameter, lambda, let or alternative, and every other name is that of a definition. -/
theorem Module.scoped_of_read (h : Module.read name source = .ok m) :
    ∀ d ∈ m.defs, d.body.Scoped (· ∈ m.defs.map (·.name)) source.length d.params :=
  fun d hd => (inPlace_of_read h d hd).inScope

/-- **The binders of a module that is read are plain.** -/
theorem Module.spelled_of_read (h : Module.read name source = .ok m) :
    ∀ d ∈ m.defs, Plain d.name ∧ (∀ x ∈ d.params, Plain x) ∧ d.body.Spelled Plain :=
  fun d hd => ⟨(inPlace_of_read h d hd).name, (inPlace_of_read h d hd).params,
    (inPlace_of_read h d hd).spelled⟩

end GraphReduction
