import GraphReduction.Proofs.Syntax.Scope

/-!
# The names of a group that is read

A `letrec` has all its names in scope before its bindings are read, so the reader finds them by a scan over
the tokens ahead. The scan counts brackets and inner lets with one number, and knows nothing of the grammar.
-/

namespace GraphReduction.Read

open List Fallible

theorem Terminated.of_suffix {ts us : List Token} (h : Terminated ts) (hus : us <:+ ts) (hne : us ≠ []) :
    Terminated us := by
  obtain ⟨ts, rfl⟩ := hus
  induction ts with
  | nil => exact h
  | cons t ts ih =>
    refine ih ?_
    cases hrest : ts ++ us with
    | nil => exact absurd (append_eq_nil_iff.1 hrest).2 hne
    | cons t' ts' =>
      rw [cons_append, hrest] at h
      exact h

theorem expect_eq_ok {kind : TokenKind} {s s' : Pending} {t : Token} (hk : kind ≠ .endOfInput)
    (hterm : s.tokens ≠ [] → Terminated s.tokens) (h : expect kind s = .ok (t, s')) :
    t.kind = kind ∧ s = { s' with tokens := t :: s'.tokens } := by
  obtain ⟨tokens, globals⟩ := s
  obtain ⟨t', s1, hadvance, h⟩ := bind_eq_ok.1 h
  split at h
  · rename_i hkind
    cases h
    match tokens with
    | [] =>
      cases hadvance
      exact absurd hkind.symm hk
    | [last] =>
      cases hadvance
      exact absurd (hkind.symm.trans (hterm (cons_ne_nil _ _))) hk
    | t' :: t'' :: ts =>
      cases hadvance
      exact ⟨hkind, rfl⟩
  · exact absurd h throw_ne_ok

/-- **The steps of a group**: its word, its bindings with all names that were found in scope, and its body. -/
theorem letRec_eq_ok {nested : Scope → ReadM Expr} {sc : Scope} {bound : Nat} {s s' : Pending} {e : Expr}
    (h : letRec nested sc bound s = .ok (e, s')) :
    ∃ kw s1 binds s2 t s3 body, expect .kwLetRec s = .ok (kw, s1) ∧
      letRecBindings nested (sc.bind (letRecNames 0 true s1.tokens)) bound s1 = .ok (binds, s2) ∧
      expect .kwIn s2 = .ok (t, s3) ∧
      nested (sc.bind (letRecNames 0 true s1.tokens)) s3 = .ok (body, s') ∧ e = .letRec binds body := by
  obtain ⟨kw, s1, hkw, h⟩ := bind_eq_ok.1 h
  obtain ⟨_, _, hget, h⟩ := bind_eq_ok.1 h
  cases hget
  obtain ⟨binds, s2, hbinds, h⟩ := bind_eq_ok.1 h
  obtain ⟨t, s3, ht, h⟩ := bind_eq_ok.1 h
  obtain ⟨body, s4, hbody, h⟩ := bind_eq_ok.1 h
  cases h
  exact ⟨kw, s1, binds, s2, t, s3, body, hkw, hbinds, ht, hbody, rfl⟩

/-- **The lookahead agrees with what is read.** Wherever a group is read in the tokens of a text, the names
that are found ahead of it are those of its bindings, in order. These and the names around the group are in
scope in all its right hand sides and in its body: no other name is a variable there, and none of them is
taken for a top-level name. -/
theorem letRecNames_eq_names_read {source : String} {tokens : List Token}
    (htokens : tokenize source = .ok tokens) {depth bound : Nat} {sc : Scope} {s s' : Pending} {e : Expr}
    (hs : s.tokens <:+ tokens) (h : letRec (readExpr depth) sc bound s = .ok (e, s')) :
    ∃ kw rest binds body s₁, s.tokens = kw :: rest ∧ kw.kind = .kwLetRec ∧ e = .letRec binds body ∧
      letRecNames 0 true rest = binds.map Prod.fst ∧
      letRecBindings (readExpr depth) (sc.bind (binds.map Prod.fst)) bound { s with tokens := rest } =
        .ok (binds, s₁) ∧
      (∀ b ∈ binds, b.2.Resolved (binds.map Prod.fst ++ sc.locals)) ∧
      body.Resolved (binds.map Prod.fst ++ sc.locals) := by
  obtain ⟨kw, s1, binds, s2, t, s3, body, hkw, hbinds, ht, hbody, rfl⟩ := letRec_eq_ok h
  have hterm : s.tokens ≠ [] → Terminated s.tokens := (terminated_tokensFrom htokens).1.of_suffix hs
  have hnamed : ∀ t ∈ s.tokens, t.Named := fun t ht => named_of_tokenize htokens t (hs.subset ht)
  obtain ⟨hkind, rfl⟩ := expect_eq_ok (by decide) hterm hkw
  set names := letRecNames 0 true s1.tokens with hnames
  have hterm1 : Terminated s1.tokens :=
    (hterm (cons_ne_nil _ _)).tail (hkind ▸ by decide)
  have hnamed1 : ∀ t ∈ s1.tokens, t.Named := fun t ht => hnamed t (mem_cons_of_mem _ ht)
  -- names that refer to no variable may be any
  obtain ⟨used, htok, hterm2, -, hused⟩ := reads_letRecBindings (D := fun _ => True)
    (reads_readExpr depth) bound s1 binds s2 hbinds hterm1 hnamed1 (Nat.le_succ _)
  obtain ⟨hrhs, -, -, hfound⟩ := hused fun _ _ => trivial
  obtain ⟨hin, rfl⟩ := expect_eq_ok (by decide) (fun _ => hterm2) ht
  have heq : names = binds.map Prod.fst := by
    rw [hnames, htok]
    exact hfound t s3.tokens hin
  have hnamed3 : ∀ t ∈ s3.tokens, t.Named := fun u hu =>
    hnamed1 u (by rw [htok]; exact mem_append_right _ (mem_cons_of_mem _ hu))
  obtain ⟨used', -, -, -, hused'⟩ := reads_readExpr (D := fun _ => True) depth (sc.bind names) s3 body s'
    hbody (hterm2.tail (hin ▸ by decide)) hnamed3 (Nat.le_succ _)
  have hscope : (sc.bind names).locals = binds.map Prod.fst ++ sc.locals := by rw [heq]; rfl
  refine ⟨kw, s1.tokens, binds, body, _, rfl, hkind, rfl, heq, heq ▸ hbinds, fun b hb => ?_, ?_⟩
  · exact hscope ▸ (hrhs b hb).1.resolved
  · exact hscope ▸ (hused' fun _ _ => trivial).2.resolved

/-- A group whose right hand sides have lets, groups, cases and lambdas in them, and bind its names again. -/
def windingSource : String :=
  "def main outer = letrec f x = let g = x; h = (letrec k = \\f -> k; g = f in k g) in f g h;" ++
  " g = case f of \x7b Pair f y -> (\\h -> y); _ -> letrec f = g; h = f in f \x7d;" ++
  " h y = g (f y) \\x -> let f = x in f in h g outer"

/-- Where the group of `windingSource` is read. -/
def windingScope : Scope := ⟨⟨[⟨"Pair", [("Pair", 2)]⟩], [("Pair", ⟨0, 2, 0⟩)]⟩, ["outer"]⟩

theorem letRecNames_eq_names_read_windingSource : ∃ tokens kw rest binds body s₁ s',
    tokenize windingSource = .ok tokens ∧ tokens.drop 4 = kw :: rest ∧
      letRec (readExpr 60) windingScope 60 ⟨kw :: rest, []⟩ = .ok (.letRec binds body, s') ∧
      letRecNames 0 true rest = ["f", "g", "h"] ∧ letRecNames 0 true rest = binds.map Prod.fst ∧
      letRecBindings (readExpr 60) (windingScope.bind (binds.map Prod.fst)) 60 ⟨rest, []⟩ = .ok (binds, s₁) ∧
      (∀ b ∈ binds, b.2.Resolved (binds.map Prod.fst ++ ["outer"])) ∧
      body.Resolved (binds.map Prod.fst ++ ["outer"]) := by
  have hfacts : ((tokenize windingSource).toOption.bind fun tokens =>
      (letRec (readExpr 60) windingScope 60 ⟨tokens.drop 4, []⟩).toOption.map fun _ =>
        letRecNames 0 true (tokens.drop 5)) = some ["f", "g", "h"] := by decide +kernel
  obtain ⟨tokens, htokens, hfacts⟩ := Option.bind_eq_some_iff.1 hfacts
  obtain ⟨⟨e, s'⟩, hread, hnames⟩ := Option.map_eq_some_iff.1 hfacts
  obtain ⟨kw, rest, binds, body, s₁, hrest, -, rfl, heq, hbinds, hrhs, hbody⟩ := letRecNames_eq_names_read
    (eq_ok_of_toOption htokens) (drop_suffix 4 tokens) (eq_ok_of_toOption hread)
  have hnext : rest = tokens.drop 5 := by
    rw [← tail_drop, show tokens.drop 4 = kw :: rest from hrest, tail_cons]
  refine ⟨tokens, kw, rest, binds, body, s₁, s', eq_ok_of_toOption htokens, hrest, ?_, hnext ▸ hnames, heq,
    hbinds, hrhs, hbody⟩
  rw [← show tokens.drop 4 = kw :: rest from hrest]
  exact eq_ok_of_toOption hread

end GraphReduction.Read
