import GraphReduction.Proofs.Syntax.Rendering
import GraphReduction.Proofs.Syntax.Scope

/-!
# Reading expressions from their words

* `Read.Takes`: what a reader makes of words, whatever their places in the text are. There is one rule for
  each of the steps that readers are made of, so that a form is read by applying these rules along its words.
* `Read.balancedWords_expr`, `letRecNames_bindClauses`: **the lookahead of a `letrec` passes over
  expressions and finds exactly the names that are bound.**
* `takes_lam`, `takes_letIn`, `takes_letRec`, `takes_caseOf`, `takes_app`: one lemma for each form, and
  one for each kind of atom.
* `takes_words`: **an expression is read from its words.**
-/

namespace GraphReduction

open List

variable {t : Token}

theorem Token.kind_of_word {w : Word} (h : t.word = w) : t.kind = w.kind := congrArg Word.kind h

theorem Token.lexeme_of_word {w : Word} (h : t.word = w) : t.lexeme = w.text :=
  congrArg Word.text h

namespace Read

open Fallible Word

variable {α β : Type} {D : Name → Prop} {next next' : TokenKind → Prop} {ws ws' : List Word}
  {w : Word} {clauses : List (List Word)} {binds : List (Name × Expr)} {ts : List Token}
  {sep : Word} {declared : Declared}

/-- The kind of the first word, or of the token after the last one. -/
def firstKind (after : TokenKind) : List Word → TokenKind
  | [] => after
  | w :: _ => w.kind

/-- **What a reader makes of words**: it takes exactly these and gives `a`, if a token of a kind in `next`
follows. The references to top-level names that it notes are such names. -/
def Takes (D : Name → Prop) (next : TokenKind → Prop) (r : ReadM α) (ws : List Word) (a : α) : Prop :=
  ∀ ts t rest globals, ts.map Token.word = ws → next t.kind →
    ∃ noted : List (Name × Position), (∀ g ∈ noted, D g.1) ∧
      r ⟨ts ++ t :: rest, globals⟩ = .ok (a, ⟨t :: rest, noted ++ globals⟩)

namespace Takes

variable {r : ReadM α} {f : α → ReadM β} {a : α} {b : β} {kind : TokenKind}

theorem pure (a : α) : Takes D next (Pure.pure a) [] a := by
  intro ts t rest globals hts _
  obtain rfl := map_eq_nil_iff.1 hts
  exact ⟨[], forall_mem_nil _, rfl⟩

theorem exists_first (hts : ts.map Token.word = ws) (t : Token) (rest : List Token) :
    ∃ t' rest', ts ++ t :: rest = t' :: rest' ∧ t'.kind = firstKind t.kind ws ∧
      ∀ w ws', ws = w :: ws' → t'.word = w := by
  subst hts
  cases ts with
  | nil => exact ⟨t, rest, rfl, rfl, fun _ _ h => by cases h⟩
  | cons t' ts =>
    refine ⟨t', ts ++ t :: rest, rfl, rfl, fun w ws' h => ?_⟩
    exact (cons.inj h).1

/-- **One after the other.** -/
theorem bind (hr : Takes D next' r ws a) (hf : Takes D next (f a) ws' b)
    (hnext : ∀ k, next k → next' (firstKind k ws')) : Takes D next (r >>= f) (ws ++ ws') b := by
  intro ts t rest globals hts ht
  obtain ⟨ts1, ts2, rfl, hts1, hts2⟩ := map_eq_append_iff.1 hts
  obtain ⟨t', rest', hfollow, hkind, -⟩ := exists_first hts2 t rest
  obtain ⟨noted1, hnoted1, hr⟩ := hr ts1 t' rest' globals hts1 (by rw [hkind]; exact hnext _ ht)
  obtain ⟨noted2, hnoted2, hf⟩ := hf ts2 t rest (noted1 ++ globals) hts2 ht
  refine ⟨noted2 ++ noted1, forall_mem_append.2 ⟨hnoted2, hnoted1⟩, ?_⟩
  rw [← hfollow] at hr
  rw [append_assoc, bind_of_ok hr, hf, append_assoc]

theorem last (hr : Takes D next' r ws a) (hf : Takes D next (f a) [] b) (hnext : ∀ k, next k → next' k) :
    Takes D next (r >>= f) ws b := by
  have hbind := hr.bind hf hnext
  rwa [append_nil] at hbind

theorem peek {f : Token → ReadM β} (h : ∀ t, (∃ k, next k ∧ t.kind = firstKind k ws) →
    (∀ w ws', ws = w :: ws' → t.word = w) → Takes D next (f t) ws b) : Takes D next (peek >>= f) ws b := by
  intro ts t rest globals hts ht
  obtain ⟨t', rest', hfollow, hkind, hword⟩ := exists_first hts t rest
  have hpeek : Read.peek ⟨ts ++ t :: rest, globals⟩ = .ok (t', ⟨ts ++ t :: rest, globals⟩) := by
    rw [hfollow]
    rfl
  rw [bind_of_ok hpeek]
  exact h t' ⟨t.kind, ht, hkind⟩ hword ts t rest globals hts ht

theorem advance {f : Token → ReadM β} (h : ∀ t, t.word = w → Takes D next (f t) ws b) :
    Takes D next (advance >>= f) (w :: ws) b := by
  intro ts t rest globals hts ht
  obtain ⟨t', ts, rfl, ht', hts⟩ := map_eq_cons_iff.1 hts
  have hadvance : Read.advance ⟨t' :: (ts ++ t :: rest), globals⟩ = .ok (t', ⟨ts ++ t :: rest, globals⟩) := by
    cases ts <;> rfl
  rw [cons_append, bind_of_ok hadvance]
  exact h t' ht' ts t rest globals hts ht

theorem expect {f : Token → ReadM β} (hkind : w.kind = kind)
    (h : ∀ t, t.word = w → Takes D next (f t) ws b) : Takes D next (expect kind >>= f) (w :: ws) b := by
  unfold Read.expect
  rw [bind_assoc]
  refine advance fun t ht => ?_
  rw [if_pos ((Token.kind_of_word ht).trans hkind), pure_bind]
  exact h t ht

theorem accept {f : Bool → ReadM β} (hkind : w.kind = kind) (h : Takes D next (f true) ws b) :
    Takes D next (accept kind >>= f) (w :: ws) b := by
  unfold Read.accept
  rw [bind_assoc]
  refine peek fun t _ ht => ?_
  rw [if_pos ((Token.kind_of_word (ht w ws rfl)).trans hkind), bind_assoc]
  refine advance fun _ _ => ?_
  rw [pure_bind]
  exact h

theorem decline {f : Bool → ReadM β} (hkind : ∀ k, next k → firstKind k ws ≠ kind)
    (h : Takes D next (f false) ws b) : Takes D next (Read.accept kind >>= f) ws b := by
  unfold Read.accept
  rw [bind_assoc]
  refine peek fun t ht _ => ?_
  obtain ⟨k, hk, ht⟩ := ht
  rw [if_neg (by rw [ht]; exact hkind k hk), pure_bind]
  exact h

/-- The reader takes all parameters, and stops at what is no identifier. -/
theorem params {f : List Name → ReadM β} (xs : List Name)
    (hnext : ∀ k, next k → firstKind k ws ≠ .identifier) (h : Takes D next (f xs) ws b) :
    Takes D next (params >>= f) (xs.map identifier ++ ws) b := by
  intro ts t rest globals hts ht
  obtain ⟨ts1, ts2, rfl, hts1, hts2⟩ := map_eq_append_iff.1 hts
  obtain ⟨t', rest', hfollow, hkind, -⟩ := exists_first hts2 t rest
  have hidents : ∀ u ∈ ts1, decide (u.kind = .identifier) = true := by
    intro u hu
    have hword := mem_map_of_mem (f := Token.word) hu
    rw [hts1] at hword
    obtain ⟨x, -, hx⟩ := mem_map.1 hword
    exact decide_eq_true (Token.kind_of_word hx.symm)
  have hnames : ts1.map Token.lexeme = xs := by
    have hlexemes := congrArg (map Word.text) hts1
    rw [map_map, map_map] at hlexemes
    exact hlexemes.trans (map_id _)
  have hparams : Read.params ⟨ts1 ++ ts2 ++ t :: rest, globals⟩ = .ok (xs, ⟨ts2 ++ t :: rest, globals⟩) := by
    have hother : decide (t'.kind = .identifier) = false := by
      rw [hkind]
      exact decide_eq_false (hnext _ ht)
    have htake : (ts1 ++ ts2 ++ t :: rest).takeWhile (fun t => decide (t.kind = .identifier)) = ts1 := by
      rw [append_assoc, takeWhile_append_of_pos hidents, hfollow, takeWhile_cons, hother,
        if_neg Bool.false_ne_true, append_nil]
    have hdrop : (ts1 ++ ts2 ++ t :: rest).dropWhile (fun t => decide (t.kind = .identifier)) =
        ts2 ++ t :: rest := by
      rw [append_assoc, dropWhile_append_of_pos hidents, hfollow, dropWhile_cons, hother,
        if_neg Bool.false_ne_true]
    show Except.ok (map Token.lexeme (takeWhile _ _), _) = _
    rw [htake, hnames]
    show Except.ok (xs, (⟨dropWhile _ _, _⟩ : Pending)) = _
    rw [hdrop]
  rw [bind_of_ok hparams]
  exact h ts2 t rest globals hts2 ht

theorem lookahead {f : Pending → ReadM β} (h : ∀ s : Pending, (∃ ts t rest, ts.map Token.word = ws ∧
    next t.kind ∧ s.tokens = ts ++ t :: rest) → Takes D next (f s) ws b) : Takes D next (get >>= f) ws b :=
  fun ts t rest globals hts ht =>
    h ⟨ts ++ t :: rest, globals⟩ ⟨ts, t, rest, hts, ht, rfl⟩ ts t rest globals hts ht

theorem lookupConstructor {f : ConstructorInfo → ReadM β} {info : ConstructorInfo}
    (hinfo : declared.constructors.lookup t.lexeme = some info) (h : Takes D next (f info) ws b) :
    Takes D next (lookupConstructor declared t >>= f) ws b := by
  unfold Read.lookupConstructor
  rw [hinfo, pure_bind]
  exact h

end Takes

/-!
## The lookahead of a `letrec`
-/

/-- Words that the lookahead passes over everywhere. -/
def BalancedWords (ws : List Word) : Prop := ∀ ts : List Token, ts.map Token.word = ws → Balanced ts

/-- Words that the lookahead passes over inside brackets. -/
def NestedWords (ws : List Word) : Prop := ∀ ts : List Token, ts.map Token.word = ws → Nested ts

theorem NestedWords.of_balanced (h : BalancedWords ws) : NestedWords ws := fun ts hts => (h ts hts).nested

theorem BalancedWords.nil : BalancedWords [] := by
  intro ts hts
  rw [map_eq_nil_iff.1 hts]
  exact .nil

theorem BalancedWords.append (h : BalancedWords ws) (h' : BalancedWords ws') : BalancedWords (ws ++ ws') := by
  intro ts hts
  obtain ⟨ts1, ts2, rfl, hts1, hts2⟩ := map_eq_append_iff.1 hts
  exact (h ts1 hts1).append (h' ts2 hts2)

theorem NestedWords.append (h : NestedWords ws) (h' : NestedWords ws') : NestedWords (ws ++ ws') := by
  intro ts hts
  obtain ⟨ts1, ts2, rfl, hts1, hts2⟩ := map_eq_append_iff.1 hts
  exact (h ts1 hts1).append (h' ts2 hts2)

theorem BalancedWords.cons (hw : plain w.kind = true) (h : BalancedWords ws) : BalancedWords (w :: ws) := by
  intro ts hts
  obtain ⟨t, ts, rfl, ht, hts⟩ := map_eq_cons_iff.1 hts
  exact (balanced_plain (Token.kind_of_word ht) hw).append (h ts hts)

theorem balancedWords_identifiers (xs : List Name) : BalancedWords (xs.map identifier) := by
  induction xs with
  | nil => exact .nil
  | cons x xs ih => exact .cons rfl ih

theorem balancedWords_brackets {l r : Word} (hl : l.kind = .leftParen ∨ l.kind = .leftBrace)
    (hr : r.kind = .rightParen ∨ r.kind = .rightBrace) (h : NestedWords ws) :
    BalancedWords (l :: (ws ++ [r])) := by
  intro ts hts
  obtain ⟨t, ts, rfl, ht, hts⟩ := map_eq_cons_iff.1 hts
  obtain ⟨ts1, ts2, rfl, hts1, hts2⟩ := map_eq_append_iff.1 hts
  obtain ⟨t', rfl, ht'⟩ := map_eq_singleton_iff.1 hts2
  refine balanced_brackets ?_ ?_ (h ts1 hts1)
  · rw [Token.kind_of_word ht]
    exact hl
  · rw [Token.kind_of_word ht']
    exact hr

theorem balancedWords_parens (h : BalancedWords ws) : BalancedWords (parens ws) :=
  balancedWords_brackets (.inl rfl) (.inl rfl) (.of_balanced h)

theorem balancedWords_let {l : Word} (hl : l.kind = .kwLet ∨ l.kind = .kwLetRec) (h : NestedWords ws)
    (h' : BalancedWords ws') : BalancedWords (l :: (ws ++ sign .kwIn :: ws')) := by
  intro ts hts
  obtain ⟨t, ts, rfl, ht, hts⟩ := map_eq_cons_iff.1 hts
  obtain ⟨ts1, ts2, rfl, hts1, hts2⟩ := map_eq_append_iff.1 hts
  obtain ⟨t', ts2, rfl, ht', hts2⟩ := map_eq_cons_iff.1 hts2
  refine balanced_let ?_ (Token.kind_of_word ht') (h ts1 hts1) (h' ts2 hts2)
  rw [Token.kind_of_word ht]
  exact hl

theorem nestedWords_separated (h : ∀ clause ∈ clauses, BalancedWords clause) :
    NestedWords (separated (sign .semicolon) clauses) := by
  have hsemicolon : NestedWords [sign .semicolon] := by
    intro ts hts
    obtain ⟨t, rfl, ht⟩ := map_eq_singleton_iff.1 hts
    exact nested_semicolon (Token.kind_of_word ht)
  induction clauses with
  | nil => exact .of_balanced .nil
  | cons clause clauses ih =>
    obtain ⟨hclause, hclauses⟩ := forall_mem_cons.1 h
    cases clauses with
    | nil => exact .of_balanced hclause
    | cons clause' clauses => exact (NestedWords.of_balanced hclause).append (hsemicolon.append (ih hclauses))

/-- **The lookahead passes over an expression.** -/
theorem balancedWords_expr (ds : List DataDecl) (e : Expr) : BalancedWords (e.words ds) := by
  induction e with
  | var _ | global _ => exact .cons rfl .nil
  | lit l => cases l <;> exact .cons rfl .nil
  | prim _ | comb _ | con _ _ => exact .cons rfl .nil
  | app f a ihf iha => exact balancedWords_parens (ihf.append iha)
  | lam x body ih =>
    exact balancedWords_parens (.cons rfl (.cons rfl (.cons rfl ih)))
  | letIn x rhs body ihr ihb =>
    refine balancedWords_parens ?_
    show BalancedWords (sign .kwLet :: (identifier x :: sign .equal :: rhs.words ds ++
      sign .kwIn :: body.words ds))
    exact balancedWords_let (.inl rfl) (.of_balanced (.cons rfl (.cons rfl ihr))) ihb
  | letRec binds body ihbinds ihbody =>
    refine balancedWords_parens (balancedWords_let (.inr rfl) ?_ ihbody)
    refine nestedWords_separated ?_
    rw [Expr.bindClauses_eq, forall_mem_map]
    exact fun b hb => .cons rfl (.cons rfl (ihbinds b hb))
  | caseOf scrut arities alts other ihs ihalts ihother =>
    have hclauses : ∀ clause ∈ Expr.altClauses ds arities alts ++ Expr.otherClause ds other,
        BalancedWords clause := by
      rw [forall_mem_append, Expr.altClauses_eq, forall_mem_map]
      refine ⟨fun alt halt => ?_, ?_⟩
      · exact .cons rfl ((balancedWords_identifiers _).append (.cons rfl (ihalts alt halt)))
      · cases other with
        | none => exact forall_mem_nil _
        | some e => exact forall_mem_singleton.2 (.cons rfl (.cons rfl (ihother e rfl)))
    refine balancedWords_parens (.cons rfl (ihs.append (.cons rfl ?_)))
    exact balancedWords_brackets (.inr rfl) (.inr rfl) (nestedWords_separated hclauses)

/-- **The lookahead of a `letrec` finds the names that are bound.** -/
theorem letRecNames_bindClauses {ds : List DataDecl} (hne : binds ≠ [])
    (hts : ts.map Token.word = separated (sign .semicolon) (Expr.bindClauses ds binds))
    (ht : t.kind = .kwIn) (rest : List Token) :
    letRecNames 0 true (ts ++ t :: rest) = binds.map Prod.fst := by
  -- a binding up to its end
  have hclause : ∀ (b : Name × Expr) (us : List Token) (rest : List Token),
      us.map Token.word = identifier b.1 :: sign .equal :: b.2.words ds →
      letRecNames 0 true (us ++ rest) = b.1 :: letRecNames 0 false rest := by
    intro b us rest hus
    obtain ⟨x, us, rfl, hx, hus⟩ := map_eq_cons_iff.1 hus
    have hkind : x.kind = .identifier := Token.kind_of_word hx
    have hlexeme : x.lexeme = b.1 := Token.lexeme_of_word hx
    have hrhs : Balanced us := BalancedWords.cons rfl (balancedWords_expr ds b.2) us hus
    rw [cons_append, letRecNames, hkind, ← hrhs 0 rest, ← hlexeme]
    rfl
  induction binds generalizing ts with
  | nil => exact absurd rfl hne
  | cons b binds ih =>
    cases binds with
    | nil =>
      rw [hclause b ts _ hts, letRecNames, ht]
      rfl
    | cons b' binds =>
      obtain ⟨ts1, ts2, rfl, hts1, hts2⟩ := map_eq_append_iff.1 hts
      obtain ⟨semi, ts2, rfl, hsemi, hts2⟩ := map_eq_cons_iff.1 hts2
      have hkind : semi.kind = .semicolon := Token.kind_of_word hsemi
      rw [append_assoc, hclause b ts1 _ hts1, cons_append, letRecNames, hkind, map_cons,
        ← ih (cons_ne_nil _ _) hts2]
      rfl

/-!
## Expressions
-/

/-- Kinds that no argument starts with. -/
def Ends (kind : TokenKind) : Prop := startsAtom kind = false ∧ startsBlock kind = false

/-- Words that start with those of an atom. -/
def StartsAtom (ws : List Word) : Prop := ∃ w ws', ws = w :: ws' ∧ startsAtom w.kind = true

theorem startsAtom_words (ds : List DataDecl) (e : Expr) : StartsAtom (e.words ds) := by
  cases e with
  | lit l => cases l <;> exact ⟨_, _, rfl, rfl⟩
  | _ => exact ⟨_, _, rfl, rfl⟩

theorem length_words_pos (ds : List DataDecl) (e : Expr) : 0 < (e.words ds).length := by
  obtain ⟨w, ws, hws, -⟩ := startsAtom_words ds e
  rw [hws]
  exact Nat.succ_pos _

/-- Whatever follows. -/
abbrev anything : TokenKind → Prop := fun _ => True

section Forms

variable {nested : Scope → ReadM Expr} {sc : Scope} {ds : List DataDecl} {bound : Nat} {x : Name}
  {e f a rhs body : Expr} {type : Nat} {acc' : Alternatives} {arities : List UInt32}
  {alts : List (Alt Expr)} {other : Option Expr}

theorem takes_parens (h : Takes D Ends (nested sc) ws e) :
    Takes D anything (atom nested sc) (parens ws) e := by
  refine Takes.advance fun t ht => ?_
  rw [Token.kind_of_word ht]
  refine h.bind ?_ fun _ _ => ⟨rfl, rfl⟩
  exact Takes.expect rfl fun _ _ => .pure e

theorem takes_application (hstart : StartsAtom ws)
    (h : Takes D Ends (atom nested sc >>= fun f => arguments nested sc f bound) ws e) :
    Takes D Ends (form nested bound sc) ws e := by
  obtain ⟨w, ws, rfl, hw⟩ := hstart
  refine Takes.peek fun t _ ht => ?_
  rw [← Token.kind_of_word (ht w ws rfl)] at hw
  -- the keywords that open a form start no atom, so every kind left is the last branch of `form`
  revert hw
  generalize t.kind = kind
  intro hw
  cases kind <;> first | exact h | cases hw

theorem takes_no_argument (f : Expr) (hbound : 0 < bound) :
    Takes D Ends (arguments nested sc f bound) [] f := by
  obtain ⟨bound, rfl⟩ : ∃ b, bound = b + 1 := ⟨bound - 1, by omega⟩
  refine Takes.peek fun t ht _ => ?_
  obtain ⟨kind, ⟨hatom, hblock⟩, ht⟩ := ht
  simp only [ht, firstKind, hatom, hblock, Bool.false_eq_true, if_false]
  exact .pure f

theorem takes_of_atom (hbound : 0 < bound) (hstart : StartsAtom ws)
    (h : Takes D anything (atom nested sc) ws e) : Takes D Ends (form nested bound sc) ws e :=
  takes_application hstart (h.last (takes_no_argument e hbound) fun _ _ => trivial)

theorem takes_app (hbound : 2 ≤ bound) (hf : Takes D anything (atom nested sc) ws f)
    (ha : Takes D anything (atom nested sc) ws' a) (hstart : StartsAtom ws) (hstart' : StartsAtom ws') :
    Takes D Ends (form nested bound sc) (ws ++ ws') (.app f a) := by
  obtain ⟨bound, rfl⟩ : ∃ b, bound = b + 2 := ⟨bound - 2, by omega⟩
  have hargument : Takes D Ends (arguments nested sc f (bound + 2)) ws' (.app f a) := by
    obtain ⟨w, ws', rfl, hw⟩ := hstart'
    refine Takes.peek fun t _ ht => ?_
    simp only [Token.kind_of_word (ht w ws' rfl), hw, if_true]
    exact ha.last (takes_no_argument (.app f a) (Nat.succ_pos bound)) fun _ _ => trivial
  refine takes_application ?_ (hf.bind hargument fun _ _ => trivial)
  obtain ⟨w, ws, rfl, hw⟩ := hstart
  exact ⟨w, ws ++ ws', rfl, hw⟩

theorem takes_lam (h : Takes D Ends (nested (sc.bind [x])) ws e) :
    Takes D Ends (form nested bound sc) (sign .backslash :: identifier x :: sign .arrow :: ws)
      (.lam x e) := by
  refine Takes.peek fun t _ ht => ?_
  rw [Token.kind_of_word (ht _ _ rfl)]
  refine Takes.expect rfl fun _ _ => Takes.params [x] (fun _ _ h => by cases h) ?_
  exact Takes.expect rfl fun _ _ => h.last (.pure _) fun _ hk => hk

theorem takes_binding (h : Takes D Ends (nested sc) ws rhs) :
    Takes D Ends (binding nested sc) (identifier x :: sign .equal :: ws) (x, rhs) := by
  refine Takes.expect rfl fun t ht => Takes.params [] (fun _ _ h => by cases h) ?_
  have hname : t.lexeme = x := Token.lexeme_of_word ht
  rw [hname]
  exact Takes.expect rfl fun _ _ => h.last (.pure _) fun _ hk => hk

theorem takes_letIn (hbound : 0 < bound) (hrhs : Takes D Ends (nested sc) ws rhs)
    (hbody : Takes D Ends (nested (sc.bind [x])) ws' body) :
    Takes D Ends (form nested bound sc)
      (sign .kwLet :: identifier x :: sign .equal :: (ws ++ sign .kwIn :: ws')) (.letIn x rhs body) := by
  obtain ⟨bound, rfl⟩ : ∃ b, bound = b + 1 := ⟨bound - 1, by omega⟩
  refine Takes.peek fun t _ ht => ?_
  rw [Token.kind_of_word (ht _ _ rfl)]
  refine Takes.expect rfl fun _ _ => ?_
  refine (takes_binding hrhs).bind ?_ fun _ _ => ⟨rfl, rfl⟩
  refine Takes.decline (fun _ _ h => by cases h) (Takes.expect rfl fun _ _ => ?_)
  exact hbody.last (.pure _) fun _ hk => hk

theorem takes_letRecBindings (hne : binds ≠ []) (hbound : binds.length ≤ bound)
    (h : ∀ b ∈ binds, Takes D Ends (nested sc) (b.2.words ds) b.2) :
    Takes D (· = .kwIn) (letRecBindings nested sc bound)
      (separated (sign .semicolon) (Expr.bindClauses ds binds)) binds := by
  induction binds generalizing bound with
  | nil => exact absurd rfl hne
  | cons b binds ih =>
    rw [length_cons] at hbound
    obtain ⟨bound, rfl⟩ : ∃ b, bound = b + 1 := ⟨bound - 1, by omega⟩
    obtain ⟨hb, hbinds⟩ := forall_mem_cons.1 h
    cases binds with
    | nil =>
      refine (takes_binding hb).last (Takes.decline ?_ (.pure _)) ?_
      · rintro _ rfl h
        cases h
      · rintro _ rfl
        exact ⟨rfl, rfl⟩
    | cons b' binds =>
      refine (takes_binding hb).bind (Takes.accept rfl ?_) fun _ _ => ⟨rfl, rfl⟩
      exact (ih (cons_ne_nil _ _) (Nat.le_of_succ_le_succ hbound) hbinds).last (.pure _) fun _ hk => hk

theorem takes_letRec (hne : binds ≠ []) (hbound : binds.length ≤ bound)
    (h : ∀ b ∈ binds, Takes D Ends (nested (sc.bind (binds.map Prod.fst))) (b.2.words ds) b.2)
    (hbody : Takes D Ends (nested (sc.bind (binds.map Prod.fst))) ws body) :
    Takes D Ends (form nested bound sc)
      (sign .kwLetRec :: (separated (sign .semicolon) (Expr.bindClauses ds binds) ++ sign .kwIn :: ws))
      (.letRec binds body) := by
  refine Takes.peek fun t _ ht => ?_
  rw [Token.kind_of_word (ht _ _ rfl)]
  refine Takes.expect rfl fun _ _ => Takes.lookahead fun s hs => ?_
  obtain ⟨ts, t, rest, hts, -, hs⟩ := hs
  -- the right-hand sides are read in the scope that the lookahead gives
  have hnames : letRecNames 0 true s.tokens = binds.map Prod.fst := by
    obtain ⟨ts1, ts2, rfl, hts1, hts2⟩ := map_eq_append_iff.1 hts
    obtain ⟨t', ts2, rfl, ht', -⟩ := map_eq_cons_iff.1 hts2
    rw [hs, append_assoc, cons_append]
    exact letRecNames_bindClauses hne hts1 (Token.kind_of_word ht') _
  simp only [hnames]
  refine (takes_letRecBindings hne hbound h).bind (Takes.expect rfl fun _ _ => ?_) fun _ _ => rfl
  exact hbody.last (.pure _) fun _ hk => hk

theorem takes_alternative {acc : Alternatives} {alt : Alt Expr} {arity : UInt32}
    (hinfo : sc.declared.constructors.lookup x = some ⟨alt.tag, arity, type⟩)
    (htype : ∀ d, acc.type = some d → d = type) (hbinders : alt.binders.length = arity.toNat)
    (hbody : Takes D Ends (nested (sc.bind alt.binders)) ws alt.body) :
    Takes D Ends (alternative nested sc acc)
      (constructor x :: (alt.binders.map identifier ++ sign .arrow :: ws))
      { acc with type := some type, alts := alt :: acc.alts } := by
  refine Takes.expect rfl fun t ht => ?_
  have hname : t.lexeme = x := Token.lexeme_of_word ht
  refine Takes.lookupConstructor (by rw [hname]; exact hinfo) ?_
  -- what is read once the type is checked
  have hrest : Takes D Ends (do
      let xs ← params
      if xs.length ≠ arity.toNat then fail t.pos (.fieldCount t.lexeme arity.toNat xs.length)
      let _ ← expect .arrow
      let body ← nested (sc.bind xs)
      return ({ acc with type := some type, alts := ⟨alt.tag, xs, body⟩ :: acc.alts } : Alternatives))
      (alt.binders.map identifier ++ sign .arrow :: ws)
      { acc with type := some type, alts := alt :: acc.alts } := by
    refine Takes.params _ (fun _ _ h => by cases h) ?_
    rw [if_neg (not_not.2 hbinders)]
    exact Takes.expect rfl fun _ _ => hbody.last (.pure _) fun _ hk => hk
  split
  · rename_i d hd
    simp only [htype d hd, ne_eq, not_true_eq_false, if_false]
    exact hrest
  · exact hrest

/-- What is read after a clause of a case. -/
def moreAlternatives (nested : Scope → ReadM Expr) (sc : Scope) (bound : Nat) (acc : Alternatives) :
    ReadM Alternatives := do
  if ← accept .semicolon then alternatives nested sc acc bound else return acc

theorem takes_default (acc : Alternatives) (he : Takes D Ends (nested sc) ws e)
    (hmore : Takes D next (moreAlternatives nested sc bound { acc with other := some e }) ws' acc')
    (hnext : ∀ k, next k → Ends (firstKind k ws')) :
    Takes D next (alternatives nested sc acc (bound + 1)) (sign .underscore :: sign .arrow :: ws ++ ws')
      acc' := by
  refine Takes.peek fun t _ ht => ?_
  rw [Token.kind_of_word (ht _ _ rfl), if_neg (fun h => by cases h)]
  refine Takes.accept rfl (Takes.expect rfl fun _ _ => he.bind ?_ hnext)
  rw [pure_bind]
  exact hmore

theorem takes_constructor {acc acc1 : Alternatives}
    (halt : Takes D Ends (alternative nested sc acc) (constructor x :: ws) acc1)
    (hmore : Takes D next (moreAlternatives nested sc bound acc1) ws' acc')
    (hnext : ∀ k, next k → Ends (firstKind k ws')) :
    Takes D next (alternatives nested sc acc (bound + 1)) (constructor x :: ws ++ ws') acc' := by
  refine Takes.peek fun t _ ht => ?_
  rw [Token.kind_of_word (ht _ _ rfl), if_neg (fun h => by cases h)]
  exact Takes.decline (fun _ _ h => by cases h) (halt.bind hmore hnext)

theorem takes_no_more (bound : Nat) (acc : Alternatives) :
    Takes D (· = .rightBrace) (moreAlternatives nested sc bound acc) [] acc := by
  refine Takes.decline ?_ (.pure acc)
  rintro _ rfl h
  cases h

/-- The reader takes the clauses of a case back, default last. -/
theorem takes_alternatives (acc : Alternatives) (hbound : alts.length < bound)
    (hinfo : ∀ alt ∈ alts, ∃ k, sc.declared.constructors.lookup (DataDecl.nameIn ds arities alt.tag) =
      some ⟨alt.tag, k, type⟩ ∧ alt.binders.length = k.toNat)
    (htype : ∀ d, acc.type = some d → d = type)
    (halts : ∀ alt ∈ alts, Takes D Ends (nested (sc.bind alt.binders)) (alt.body.words ds) alt.body)
    (hother : ∀ e, other = some e → Takes D Ends (nested sc) (e.words ds) e) :
    ∃ acc', Takes D (· = .rightBrace) (alternatives nested sc acc bound)
        (separated (sign .semicolon) (Expr.altClauses ds arities alts ++ Expr.otherClause ds other)) acc' ∧
      acc'.alts = alts.reverse ++ acc.alts ∧ acc'.other = other.or acc.other ∧
      acc'.type = if alts = [] then acc.type else some type := by
  have hends : ∀ k, k = TokenKind.rightBrace → Ends k := by
    rintro _ rfl
    exact ⟨rfl, rfl⟩
  obtain ⟨bound, rfl⟩ : ∃ b, bound = b + 1 := ⟨bound - 1, by omega⟩
  induction alts generalizing acc bound with
  | nil =>
    cases other with
    | none =>
      refine ⟨acc, ?_, rfl, rfl, rfl⟩
      refine Takes.peek fun t ht _ => ?_
      obtain ⟨_, rfl, ht⟩ := ht
      rw [ht]
      exact .pure acc
    | some e =>
      refine ⟨{ acc with other := some e }, ?_, rfl, rfl, rfl⟩
      have hlast := takes_default acc (hother e rfl) (takes_no_more bound _) hends
      rwa [append_nil] at hlast
  | cons alt alts ih =>
    obtain ⟨halt, halts⟩ := forall_mem_cons.1 halts
    obtain ⟨⟨k, hlookup, hbinders⟩, hinfo⟩ := forall_mem_cons.1 hinfo
    have hread := takes_alternative hlookup htype hbinders halt
    rw [Expr.altClauses, cons_append]
    cases hclauses : Expr.altClauses ds arities alts ++ Expr.otherClause ds other with
    | nil =>
      -- this was the last clause
      obtain ⟨hnil, hnone⟩ := append_eq_nil_iff.1 hclauses
      obtain rfl : alts = [] := by
        rw [Expr.altClauses_eq] at hnil
        exact map_eq_nil_iff.1 hnil
      obtain rfl : other = none := by
        cases other with
        | none => rfl
        | some e => cases hnone
      refine ⟨{ acc with type := some type, alts := alt :: acc.alts }, ?_, rfl, rfl, rfl⟩
      have hlast := takes_constructor hread (takes_no_more bound _) hends
      rwa [append_nil] at hlast
    | cons clause clauses =>
      rw [length_cons] at hbound
      obtain ⟨bound, rfl⟩ : ∃ b, bound = b + 1 := ⟨bound - 1, by omega⟩
      obtain ⟨acc', hmore, halts', hother', htype'⟩ := ih
        { acc with type := some type, alts := alt :: acc.alts } hinfo
        (fun d hd => (Option.some.inj hd).symm) halts bound (Nat.lt_of_succ_lt_succ hbound)
      rw [hclauses] at hmore
      refine ⟨acc', takes_constructor hread (Takes.accept rfl hmore) fun _ _ => ⟨rfl, rfl⟩, ?_, hother', ?_⟩
      · rw [halts', reverse_cons, append_assoc]
        rfl
      · rw [htype', if_neg (cons_ne_nil _ _), ite_self]

theorem takes_caseOf {scrut : Expr} (type : Nat)
    (harities : sc.declared.datatypes[type]?.map DataDecl.arities = some arities) (hne : alts ≠ [])
    (hbound : alts.length < bound)
    (hinfo : ∀ alt ∈ alts, ∃ k, sc.declared.constructors.lookup (DataDecl.nameIn ds arities alt.tag) =
      some ⟨alt.tag, k, type⟩ ∧ alt.binders.length = k.toNat)
    (hscrut : Takes D Ends (nested sc) ws scrut)
    (halts : ∀ alt ∈ alts, Takes D Ends (nested (sc.bind alt.binders)) (alt.body.words ds) alt.body)
    (hother : ∀ e, other = some e → Takes D Ends (nested sc) (e.words ds) e) :
    Takes D Ends (form nested bound sc) (sign .kwCase :: (ws ++ sign .kwOf :: sign .leftBrace ::
      (separated (sign .semicolon) (Expr.altClauses ds arities alts ++ Expr.otherClause ds other) ++
        [sign .rightBrace]))) (.caseOf scrut arities alts other) := by
  obtain ⟨acc, hread, halts', hother', htype⟩ :=
    takes_alternatives {} hbound hinfo (fun d hd => by cases hd) halts hother
  refine Takes.peek fun t _ ht => ?_
  rw [Token.kind_of_word (ht _ _ rfl)]
  refine Takes.expect rfl fun _ _ => hscrut.bind ?_ fun _ _ => ⟨rfl, rfl⟩
  refine Takes.expect rfl fun _ _ => Takes.expect rfl fun _ _ => hread.bind ?_ fun _ _ => rfl
  refine Takes.expect rfl fun _ _ => ?_
  rw [htype, if_neg hne, halts', hother']
  simp only [harities, Option.getD_some, append_nil, reverse_reverse, Option.or_none]
  exact .pure _

/-!
## Atoms
-/

theorem takes_var (hx : x ∈ sc.locals) : Takes D anything (atom nested sc) [identifier x] (.var x) := by
  refine Takes.advance fun t ht => ?_
  have hname : t.lexeme = x := Token.lexeme_of_word ht
  rw [Token.kind_of_word ht, hname]
  show Takes D anything (if x ∈ sc.locals then _ else _) [] _
  rw [if_pos hx]
  exact .pure _

theorem takes_global (hx : x ∉ sc.locals) (hD : D x) :
    Takes D anything (atom nested sc) [identifier x] (.global x) := by
  refine Takes.advance fun t ht => ?_
  have hname : t.lexeme = x := Token.lexeme_of_word ht
  rw [Token.kind_of_word ht, hname]
  show Takes D anything (if x ∈ sc.locals then _ else _) [] _
  rw [if_neg hx]
  intro ts t' rest globals hts _
  obtain rfl := map_eq_nil_iff.1 hts
  exact ⟨[(x, t.pos)], forall_mem_singleton.2 hD, rfl⟩

theorem takes_con {tag arity : UInt32}
    (hinfo : sc.declared.constructors.lookup x = some ⟨tag, arity, type⟩) :
    Takes D anything (atom nested sc) [constructor x] (.con tag arity) := by
  refine Takes.advance fun t ht => ?_
  have hname : t.lexeme = x := Token.lexeme_of_word ht
  rw [Token.kind_of_word ht]
  exact Takes.lookupConstructor (by rw [hname]; exact hinfo) (.pure _)

theorem takes_literal {l : Literal} : Takes D anything (atom nested sc) [literal l] (.lit l) := by
  refine Takes.advance fun t ht => ?_
  rw [Token.kind_of_word ht]
  cases l <;> exact .pure _

theorem takes_prim (p : Primitive) : Takes D anything (atom nested sc) [primitive p.name] (.prim p) := by
  refine Takes.advance fun t ht => ?_
  have hname : Primitive.ofName? p.name = some p := by
    cases p <;> decide
  rw [Token.kind_of_word ht]
  simp only [primitive, hname]
  exact .pure _

theorem takes_comb {c : Combinator} (hc : c.isAction = true) :
    Takes D anything (atom nested sc) [primitive c.render] (.comb c) := by
  refine Takes.advance fun t ht => ?_
  have hname : Primitive.ofName? c.render = none ∧ Combinator.ofName? c.render = some c := by
    cases c with
    | ioBind | ioThen | ioReturn => decide
    | _ => cases hc
  rw [Token.kind_of_word ht]
  simp only [primitive, hname]
  exact .pure _

end Forms

/-!
## Levels of nesting

The number of words bounds both the levels of an expression and the clauses at each of them.
-/

theorem length_le_separated {clause : List Word} (h : clause ∈ clauses) :
    clause.length ≤ (separated sep clauses).length := by
  induction clauses with
  | nil => exact absurd h not_mem_nil
  | cons first clauses ih =>
    cases clauses with
    | nil =>
      rw [mem_singleton.1 h]
      exact le_rfl
    | cons second clauses =>
      simp only [separated, length_append, length_cons]
      rcases mem_cons.1 h with rfl | h
      · omega
      · have := ih h
        omega

theorem count_le_separated (h : ∀ clause ∈ clauses, clause ≠ []) :
    clauses.length ≤ (separated sep clauses).length := by
  induction clauses with
  | nil => exact le_rfl
  | cons first clauses ih =>
    obtain ⟨hfirst, hclauses⟩ := forall_mem_cons.1 h
    have hpos := length_pos_iff.2 hfirst
    cases clauses with
    | nil => exact hpos
    | cons second clauses =>
      have := ih hclauses
      simp only [separated, length_append, length_cons] at this ⊢
      omega

section Levels

variable {sc : Scope} {ds : List DataDecl} {bound : Nat} {e : Expr}

theorem length_binds (ds : List DataDecl) (binds : List (Name × Expr)) :
    binds.length ≤ (separated (sign .semicolon) (Expr.bindClauses ds binds)).length ∧
    ∀ b ∈ binds,
      (b.2.words ds).length ≤ (separated (sign .semicolon) (Expr.bindClauses ds binds)).length := by
  rw [Expr.bindClauses_eq]
  refine ⟨?_, fun b hb => ?_⟩
  · refine le_trans (length_map _).ge (count_le_separated ?_)
    rw [forall_mem_map]
    exact fun b _ => cons_ne_nil _ _
  · refine le_trans ?_ (length_le_separated (mem_map_of_mem hb))
    simp only [length_cons]
    omega

theorem length_alternatives (ds : List DataDecl) (arities : List UInt32) (alts : List (Alt Expr))
    (other : Option Expr) :
    let size := (separated (sign .semicolon)
      (Expr.altClauses ds arities alts ++ Expr.otherClause ds other)).length
    alts.length ≤ size ∧ (∀ alt ∈ alts, (alt.body.words ds).length ≤ size) ∧
      ∀ e, other = some e → (e.words ds).length ≤ size := by
  rw [Expr.altClauses_eq]
  refine ⟨?_, fun alt halt => ?_, ?_⟩
  · refine le_trans ?_ (count_le_separated ?_)
    · rw [length_append, length_map]
      omega
    · rw [forall_mem_append, forall_mem_map]
      refine ⟨fun alt _ => cons_ne_nil _ _, ?_⟩
      cases other with
      | none => exact forall_mem_nil _
      | some e => exact forall_mem_singleton.2 (cons_ne_nil _ _)
  · refine le_trans ?_ (length_le_separated (mem_append_left _ (mem_map_of_mem halt)))
    simp only [length_cons, length_append]
    omega
  · rintro e rfl
    refine le_trans ?_ (length_le_separated (mem_append_right _ (mem_singleton_self _)))
    simp only [length_cons]
    omega

theorem takes_readExpr (h : ∀ bound, (e.words ds).length ≤ bound →
      Takes D anything (atom (readExpr bound) sc) (e.words ds) e)
    (hbound : (e.words ds).length < bound) : Takes D Ends (readExpr bound sc) (e.words ds) e := by
  obtain ⟨bound, rfl⟩ : ∃ b, bound = b + 1 := ⟨bound - 1, by omega⟩
  have hlen : (e.words ds).length ≤ bound := Nat.le_of_lt_succ hbound
  exact takes_of_atom (Nat.lt_of_lt_of_le (length_words_pos ds e) hlen) (startsAtom_words ds e) (h _ hlen)

theorem takes_compound (h : ∀ bound, ws.length < bound → Takes D Ends (form (readExpr bound) bound sc) ws e)
    (hbound : (parens ws).length ≤ bound) : Takes D anything (atom (readExpr bound) sc) (parens ws) e := by
  simp only [parens, length_cons, length_append, length_nil] at hbound
  obtain ⟨bound, rfl⟩ : ∃ b, bound = b + 1 := ⟨bound - 1, by omega⟩
  exact takes_parens (h bound (by omega))

/-- Declarations with the tables of these types. -/
structure Declared.Lists (declared : Declared) (ds : List DataDecl) : Prop where
  datatypes : declared.datatypes = ds
  constructors : ∀ i d j x arity, ds[i]? = some d → d.constructors[j]? = some (x, arity) →
    declared.constructors.lookup x = some ⟨UInt32.ofNat j, arity, i⟩

/-- **An expression is read from its words.** -/
theorem takes_words (hdeclared : declared.Lists ds) {Γ : List Name} (h : e.Printable ds D Γ)
    (hbound : (e.words ds).length ≤ bound) :
    Takes D anything (atom (readExpr bound) ⟨declared, Γ⟩) (e.words ds) e := by
  induction h generalizing bound with
  | var _ hx => exact takes_var hx
  | global _ hx hD => exact takes_global hx hD
  | int _ | char _ | str _ => exact takes_literal
  | prim p => exact takes_prim p
  | comb hc => exact takes_comb hc
  | @con Γ tag arity hcon =>
    obtain ⟨d, hd, hc⟩ := DataDecl.nameOf_spec hcon
    obtain ⟨i, hi⟩ := mem_iff_getElem?.1 hd
    have hinfo := hdeclared.constructors i d _ _ _ hi hc
    rw [UInt32.ofNat_toNat] at hinfo
    exact takes_con hinfo
  | @app Γ f a _ _ ihf iha =>
    refine takes_compound (fun bound hbound => ?_) hbound
    have hf := length_words_pos ds f
    have ha := length_words_pos ds a
    rw [length_append] at hbound
    exact takes_app (by omega) (ihf (by omega)) (iha (by omega)) (startsAtom_words ds f)
      (startsAtom_words ds a)
  | @lam Γ x body _ _ ih =>
    refine takes_compound (fun bound hbound => takes_lam (takes_readExpr (fun _ hb => ih hb) ?_)) hbound
    simp only [length_cons] at hbound
    omega
  | @letIn Γ x rhs body _ _ _ ihr ihb =>
    refine takes_compound (fun bound hbound => ?_) hbound
    simp only [length_cons, length_append] at hbound
    exact takes_letIn (by omega) (takes_readExpr (fun _ hb => ihr hb) (by omega))
      (takes_readExpr (fun _ hb => ihb hb) (by omega))
  | @letRec Γ binds body hne _ _ _ ihbinds ihbody =>
    refine takes_compound (fun bound hbound => ?_) hbound
    obtain ⟨hcount, hsizes⟩ := length_binds ds binds
    simp only [length_cons, length_append] at hbound
    refine takes_letRec hne (by omega) (fun b hb => takes_readExpr (fun _ hb' => ihbinds b hb hb') ?_)
      (takes_readExpr (fun _ hb => ihbody hb) (by omega))
    have := hsizes b hb
    omega
  | @caseOf Γ scrut arities alts other hcase hne hfits _ _ _ _ ihs ihalts ihother =>
    obtain ⟨d, hd, harities, hnames⟩ := DataDecl.nameIn_spec hcase
    obtain ⟨i, hi⟩ := mem_iff_getElem?.1 hd
    refine takes_compound (fun bound hbound => ?_) hbound
    obtain ⟨hcount, hsizes, hsize⟩ :=
      length_alternatives ds arities alts other
    simp only [length_cons, length_append] at hbound
    refine takes_caseOf i ?_ hne (by omega) (fun alt halt => ?_)
      (takes_readExpr (fun _ hb => ihs hb) (by omega))
      (fun alt halt => takes_readExpr (fun _ hb => ihalts alt halt hb) ?_)
      fun e he => takes_readExpr (fun _ hb => ihother e he hb) ?_
    · rw [hdeclared.datatypes, hi, Option.map_some, harities]
    · obtain ⟨k, hk, hbinders⟩ := hfits alt halt
      have hinfo := hdeclared.constructors i d _ _ _ hi (hnames _ _ hk)
      rw [UInt32.ofNat_toNat] at hinfo
      exact ⟨k, hinfo, hbinders⟩
    · have := hsizes alt halt
      omega
    · have := hsize e he
      omega

end Levels

end Read

end GraphReduction
