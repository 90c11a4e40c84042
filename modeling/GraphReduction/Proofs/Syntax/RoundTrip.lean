import GraphReduction.Proofs.Lists
import GraphReduction.Proofs.Syntax.Parsing

/-!
# Reading inverts writing

* `Read.table`: the constructors of data declarations as the reader keeps them. `lists_table`: **each is found
  by its name.**
* `Read.takes_readItems`: **the declarations and definitions of a module are read from their words.**
* `Module.read_source`: **a module is read from its text.**
-/

namespace GraphReduction

open List

namespace Read

open Word

variable {D : Name → Prop} {next : TokenKind → Prop} {ds : List DataDecl} {cons : List (Name × UInt32)}
  {index tag bound : Nat} {x : Name} {arity : UInt32} {known : List (Name × ConstructorInfo)}
  {kind : TokenKind}

/-!
## Tables of constructors
-/

/-- The constructors of one declaration, numbered from `tag`, the last one first. -/
def entries (index tag : Nat) : List (Name × UInt32) → List (Name × ConstructorInfo)
  | [] => []
  | (x, arity) :: cons => entries index (tag + 1) cons ++ [(x, ⟨UInt32.ofNat tag, arity, index⟩)]

/-- The constructors of declarations, numbered from `index`, the last one first. -/
def table (index : Nat) : List DataDecl → List (Name × ConstructorInfo)
  | [] => []
  | d :: ds => table (index + 1) ds ++ entries index 0 d.constructors

theorem map_fst_entries : (entries index tag cons).map Prod.fst = (cons.map Prod.fst).reverse := by
  induction cons generalizing tag with
  | nil => rfl
  | cons c cons ih =>
    rw [entries, map_append, ih]
    exact reverse_cons.symm

theorem map_fst_table :
    (table index ds).map Prod.fst = (ds.flatMap fun d => d.constructors.map Prod.fst).reverse := by
  induction ds generalizing index with
  | nil => rfl
  | cons d ds ih =>
    rw [table, map_append, ih, map_fst_entries, flatMap_cons, reverse_append]

theorem mem_entries (index tag : Nat) {j : Nat} (h : cons[j]? = some (x, arity)) :
    (x, ⟨UInt32.ofNat (tag + j), arity, index⟩) ∈ entries index tag cons := by
  induction cons generalizing tag j with
  | nil => cases h
  | cons c cons ih =>
    rw [entries, mem_append]
    cases j with
    | zero =>
      cases h
      exact .inr (mem_singleton_self _)
    | succ j =>
      refine .inl ?_
      have hstep : tag + (j + 1) = tag + 1 + j := by omega
      rw [hstep]
      exact ih (tag + 1) h

theorem mem_table (index : Nat) {i j : Nat} (hd : ds[i]? = some d)
    (h : d.constructors[j]? = some (x, arity)) :
    (x, ⟨UInt32.ofNat j, arity, index + i⟩) ∈ table index ds := by
  induction ds generalizing index i with
  | nil => cases hd
  | cons d' ds ih =>
    rw [table, mem_append]
    cases i with
    | zero =>
      cases hd
      have hmem := mem_entries index 0 h
      rw [Nat.zero_add] at hmem
      exact .inr hmem
    | succ i =>
      refine .inl ?_
      have hstep : index + (i + 1) = index + 1 + i := by omega
      rw [hstep]
      exact ih (index + 1) hd

/-- **Each constructor is found by its name.** -/
theorem lists_table (hnodup : (ds.flatMap fun d => d.constructors.map Prod.fst).Nodup) :
    Declared.Lists ⟨ds, table 0 ds⟩ ds := by
  refine ⟨rfl, fun i d j x arity hd hc => lookup_of_mem ?_ ?_⟩
  · rw [map_fst_table, nodup_reverse]
    exact hnodup
  · have hmem := mem_table 0 hd hc
    rwa [Nat.zero_add] at hmem

/-!
## Declarations and definitions
-/

/-- What is read after a constructor. -/
def moreConstructors (index tag bound : Nat) (known : List (Name × ConstructorInfo)) (c : Name × UInt32) :
    ReadM (List (Name × UInt32) × List (Name × ConstructorInfo)) := do
  if ← accept .bar then
    let (cons, known) ← readConstructors index known (tag + 1) bound
    return (c :: cons, known)
  return ([c], known)

theorem toInt_arity (arity : UInt32) : (Int64.ofNat arity.toNat).toInt = arity.toNat :=
  Int64.toInt_ofNat_of_lt (lt_trans arity.toNat_lt (by decide))

theorem takes_constructor_decl {ws : List Word} {r : List (Name × UInt32) × List (Name × ConstructorInfo)}
    (hfresh : x ∉ known.map Prod.fst)
    (hmore : Takes D next
      (moreConstructors index tag bound ((x, ⟨UInt32.ofNat tag, arity, index⟩) :: known) (x, arity)) ws r) :
    Takes D next (readConstructors index known tag (bound + 1))
      (constructor x :: int (Int64.ofNat arity.toNat) :: ws) r := by
  refine Takes.expect rfl fun con hcon => Takes.peek fun t _ ht => ?_
  have hname : con.lexeme = x := Token.lexeme_of_word hcon
  have hkind : t.kind = .int (Int64.ofNat arity.toNat) := Token.kind_of_word (ht _ _ rfl)
  have hfits : (decide (0 ≤ (arity.toNat : Int)) && decide (arity.toNat < UInt32.size)) = true := by
    simp only [Bool.and_eq_true, decide_eq_true_eq]
    exact ⟨Int.natCast_nonneg _, arity.toNat_lt⟩
  rw [hkind]
  refine Takes.advance fun _ _ => ?_
  simp only [toInt_arity, Int.toNat_natCast, hfits, if_true, pure_bind, hname, UInt32.ofNat_toNat,
    lookup_eq_none.2 hfresh, Option.isSome_none, Bool.false_eq_true, if_false]
  exact hmore

/-- The reader takes the constructors of a declaration back. -/
theorem takes_readConstructors (tag : Nat) (known : List (Name × ConstructorInfo)) (hne : cons ≠ [])
    (hbound : cons.length ≤ bound) (hnodup : (cons.map Prod.fst).Nodup)
    (hnew : ∀ c ∈ cons, c.1 ∉ known.map Prod.fst) :
    Takes D (· ≠ .bar) (readConstructors index known tag bound)
      (separated (sign .bar) (cons.map fun c => [constructor c.1, int (Int64.ofNat c.2.toNat)]))
      (cons, entries index tag cons ++ known) := by
  induction cons generalizing bound known tag with
  | nil => exact absurd rfl hne
  | cons c cons ih =>
    rw [length_cons] at hbound
    obtain ⟨bound, rfl⟩ : ∃ b, bound = b + 1 := ⟨bound - 1, by omega⟩
    obtain ⟨hc, hnodup⟩ := nodup_cons.1 hnodup
    obtain ⟨hfresh, hnew⟩ := forall_mem_cons.1 hnew
    cases cons with
    | nil => exact takes_constructor_decl hfresh (Takes.decline (fun _ hk => hk) (.pure _))
    | cons c' cons =>
      refine takes_constructor_decl hfresh (Takes.accept rfl ?_)
      have hread := ih (tag + 1) ((c.1, ⟨UInt32.ofNat tag, c.2, index⟩) :: known)
        (cons_ne_nil _ _) (Nat.le_of_succ_le_succ hbound) hnodup ?_
      · have heq : entries index tag (c :: c' :: cons) ++ known =
            entries index (tag + 1) (c' :: cons) ++ (c.1, ⟨UInt32.ofNat tag, c.2, index⟩) :: known := by
          rw [entries, append_assoc]
          rfl
        rw [heq]
        exact hread.last (.pure _) fun _ hk => hk
      · intro d hd
        rw [map_cons, mem_cons, not_or]
        refine ⟨fun h => hc ?_, hnew d hd⟩
        rw [← h]
        exact mem_map_of_mem hd

/-- Kinds that an item starts with, and the end of the input. -/
def StartsItem (kind : TokenKind) : Prop := kind = .kwData ∨ kind = .kwDef ∨ kind = .endOfInput

theorem StartsItem.ends (h : StartsItem kind) : Ends kind := by
  rcases h with rfl | rfl | rfl <;> exact ⟨rfl, rfl⟩

theorem StartsItem.ne_bar (h : StartsItem kind) : kind ≠ .bar := by
  rcases h with rfl | rfl | rfl <;> exact fun h => by cases h

variable {declared : Declared} {d : DataDecl}

theorem takes_readData (hne : d.constructors ≠ []) (hbound : d.constructors.length ≤ bound)
    (hnodup : (d.constructors.map Prod.fst).Nodup)
    (hnew : ∀ c ∈ d.constructors, c.1 ∉ declared.constructors.map Prod.fst) :
    Takes D StartsItem (readData declared bound) d.words
      ⟨declared.datatypes ++ [d],
        entries declared.datatypes.length 0 d.constructors ++ declared.constructors⟩ := by
  refine Takes.expect rfl fun _ _ => Takes.expect rfl fun t ht => Takes.expect rfl fun _ _ => ?_
  have hname : t.lexeme = d.name := Token.lexeme_of_word ht
  simp only [hname]
  exact (takes_readConstructors 0 _ hne hbound hnodup hnew).last (.pure _) fun _ hk => hk.ne_bar

theorem takes_readDef {d : Binding Expr} (hdeclared : declared.Lists ds) (hd : d.body.Printable ds D d.params)
    (hbound : (d.body.words ds).length < bound) :
    Takes D StartsItem (readDef declared bound) (d.words ds) d := by
  refine Takes.expect rfl fun _ _ => Takes.expect rfl fun t ht => ?_
  have hname : t.lexeme = d.name := Token.lexeme_of_word ht
  simp only [hname]
  refine Takes.params _ (fun _ _ h => by cases h) (Takes.expect rfl fun _ _ => ?_)
  exact (takes_readExpr (fun _ hb => takes_words hdeclared hd hb) hbound).last (.pure _) fun _ hk => hk.ends

theorem startsItem_items {defs : List (Binding Expr)} (ds' : List DataDecl) {kind : TokenKind}
    (hk : kind = .endOfInput) :
    StartsItem (firstKind kind (ds'.flatMap DataDecl.words ++ defs.flatMap (Binding.words ds))) := by
  cases ds' with
  | cons d ds' => exact .inl rfl
  | nil =>
    cases defs with
    | cons d defs => exact .inr (.inl rfl)
    | nil => exact .inr (.inr hk)

variable {exprBound : Nat} {defs : List (Binding Expr)}

theorem takes_defs (hdeclared : declared.Lists ds) (hdefs : ∀ d ∈ defs, d.body.Printable ds D d.params)
    (hexpr : ∀ d ∈ defs, (d.body.words ds).length < exprBound) (hbound : defs.length < bound) :
    Takes D (· = .endOfInput) (readItems exprBound declared bound) (defs.flatMap (Binding.words ds))
      (ds, defs) := by
  induction defs generalizing bound with
  | nil =>
    obtain ⟨bound, rfl⟩ : ∃ b, bound = b + 1 := ⟨bound - 1, by omega⟩
    refine Takes.peek fun t ht _ => ?_
    obtain ⟨_, rfl, ht⟩ := ht
    rw [ht, ← hdeclared.datatypes]
    exact .pure _
  | cons d defs ih =>
    obtain ⟨bound, rfl⟩ : ∃ b, bound = b + 1 := ⟨bound - 1, by omega⟩
    obtain ⟨hd, hdefs⟩ := forall_mem_cons.1 hdefs
    obtain ⟨hsize, hexpr⟩ := forall_mem_cons.1 hexpr
    refine Takes.peek fun t _ ht => ?_
    rw [Token.kind_of_word (ht _ _ rfl), flatMap_cons]
    refine (takes_readDef hdeclared hd hsize).bind ?_ fun _ hk => startsItem_items [] hk
    exact (ih hdefs hexpr (Nat.lt_of_succ_lt_succ hbound)).last (.pure _) fun _ hk => hk

/-- **The declarations and definitions of a module are read from their words.** `ds` are the declarations
that are left. -/
theorem takes_readItems {read : List (Name × ConstructorInfo)} {before all : List DataDecl}
    (hall : before ++ ds = all) (hknown : table before.length ds ++ read = known)
    (htypes : ∀ d ∈ ds, d.constructors ≠ [] ∧ d.constructors.length ≤ exprBound)
    (hnodup : (known.map Prod.fst).Nodup) (hlists : Declared.Lists ⟨all, known⟩ all)
    (hdefs : ∀ d ∈ defs, d.body.Printable all D d.params)
    (hexpr : ∀ d ∈ defs, (d.body.words all).length < exprBound)
    (hbound : ds.length + defs.length < bound) :
    Takes D (· = .endOfInput) (readItems exprBound ⟨before, read⟩ bound)
      (ds.flatMap DataDecl.words ++ defs.flatMap (Binding.words all)) (all, defs) := by
  induction ds generalizing before read bound with
  | nil =>
    rw [append_nil] at hall
    rw [length_nil, Nat.zero_add] at hbound
    subst hall hknown
    exact takes_defs hlists hdefs hexpr hbound
  | cons d ds ih =>
    obtain ⟨bound, rfl⟩ : ∃ b, bound = b + 1 := ⟨bound - 1, by omega⟩
    obtain ⟨⟨hne, hsize⟩, htypes⟩ := forall_mem_cons.1 htypes
    rw [table, append_assoc] at hknown
    -- the constructors of this type, and those before it
    have hnames := hnodup
    rw [← hknown, map_append] at hnames
    obtain ⟨-, hnames, -⟩ := nodup_append.1 hnames
    rw [map_append, map_fst_entries] at hnames
    obtain ⟨hown, -, hold⟩ := nodup_append.1 hnames
    refine Takes.peek fun t _ ht => ?_
    rw [Token.kind_of_word (ht _ _ rfl), flatMap_cons, append_assoc]
    refine (takes_readData hne hsize (nodup_reverse.1 hown) ?_).bind (ih ?_ ?_ htypes ?_)
      fun _ hk => startsItem_items ds hk
    · exact fun c hc hmem => hold _ (mem_reverse.2 (mem_map_of_mem hc)) _ hmem rfl
    · rw [← hall, append_assoc]
      rfl
    · rw [length_append]
      exact hknown
    · rw [length_cons] at hbound
      omega

end Read

namespace Module

variable {m : Module}

/-- Once its items are read, a module is accepted if all that it refers to is defined. -/
theorem ofTokens_of_readItems {tokens rest : List Token} {noted : List (Name × Position)}
    (hread : Read.readItems (2 * tokens.length + 2) ⟨[], []⟩ (2 * tokens.length + 2) ⟨tokens, []⟩ =
      .ok ((m.datatypes, m.defs), ⟨rest, noted⟩))
    (hnoted : ∀ g ∈ noted, ∃ d ∈ m.defs, d.name = g.1) : Module.ofTokens m.name tokens = .ok m := by
  unfold Module.ofTokens
  simp only [StateT.run, hread, bind, Except.bind]
  split
  · rename_i x pos hfind
    have hmissing := find?_some hfind
    obtain ⟨d, hd, hname⟩ := hnoted _ (mem_reverse.1 (mem_of_find?_eq_some hfind))
    have hother := find?_eq_none.1 (Option.isNone_iff_eq_none.1 hmissing) d hd
    exact absurd (beq_iff_eq.2 hname) hother
  · rfl

theorem length_le_flatMap {α : Type} {f : α → List Word} {xs : List α} {x : α} (hx : x ∈ xs) :
    (f x).length ≤ (xs.flatMap f).length := by
  rw [length_flatMap]
  exact le_sum_of_mem (mem_map_of_mem hx)

theorem count_le_flatMap {α : Type} {f : α → List Word} (xs : List α) (h : ∀ x, 1 ≤ (f x).length) :
    xs.length ≤ (xs.flatMap f).length := by
  rw [length_flatMap]
  refine le_trans (length_map _).ge (length_le_sum_of_one_le _ ?_)
  rw [forall_mem_map]
  exact fun x _ => h x

/-- The bound for reading is large enough: each declaration and each definition has words of its own, and so
have their parts. -/
theorem length_words : m.datatypes.length + m.defs.length ≤ m.words.length ∧
    (∀ d ∈ m.datatypes, d.constructors.length ≤ m.words.length) ∧
    ∀ d ∈ m.defs, (d.body.words m.datatypes).length ≤ m.words.length := by
  rw [words, length_append]
  refine ⟨?_, fun d hd => ?_, fun d hd => ?_⟩
  · exact Nat.add_le_add (count_le_flatMap _ fun _ => Nat.succ_pos _)
      (count_le_flatMap _ fun _ => Nat.succ_pos _)
  · have hparts : d.constructors.length ≤ d.words.length := by
      have hcount : d.constructors.length ≤ (Word.separated (.sign .bar) (d.constructors.map fun c =>
          [.constructor c.1, .int (Int64.ofNat c.2.toNat)])).length := by
        refine le_trans (length_map _).ge (Read.count_le_separated ?_)
        rw [forall_mem_map]
        exact fun c _ => cons_ne_nil _ _
      simp only [DataDecl.words, length_cons]
      omega
    have := length_le_flatMap (f := DataDecl.words) hd
    omega
  · have hpart : (d.body.words m.datatypes).length ≤ (d.words m.datatypes).length := by
      simp only [Binding.words, length_cons, length_append]
      omega
    have := length_le_flatMap (f := Binding.words m.datatypes) hd
    omega

/-- **A module is read from its text.** -/
theorem read_source (h : m.Printable) : Module.read m.name m.source = .ok m := by
  obtain ⟨ts, last, hts, hlast, htokens⟩ := tokenize_sentence h.scans
  obtain ⟨hcount, htypes, hdefs⟩ := length_words (m := m)
  have hlen : (ts ++ [last]).length = m.words.length + 1 := by
    rw [List.length_append, ← hts, List.length_map]
    rfl
  have hnodup : ((Read.table 0 m.datatypes).map Prod.fst).Nodup := by
    rw [Read.map_fst_table, List.nodup_reverse]
    exact h.distinct
  have htake : Read.Takes (fun x => ∃ d ∈ m.defs, d.name = x) (· = .endOfInput)
      (Read.readItems (2 * (ts ++ [last]).length + 2) ⟨[], []⟩ (2 * (ts ++ [last]).length + 2)) m.words
      (m.datatypes, m.defs) := by
    refine Read.takes_readItems rfl (List.append_nil _) (fun d hd => ⟨(h.types d hd).2.1, ?_⟩) hnodup
      (Read.lists_table h.distinct) (fun d hd => (h.defs d hd).2.2) (fun d hd => ?_) (by omega)
    · have := htypes d hd
      omega
    · have := hdefs d hd
      omega
  obtain ⟨noted, hnoted, hread⟩ := htake ts last [] [] hts hlast
  rw [List.append_nil] at hread
  rw [Module.read, source, htokens]
  exact ofTokens_of_readItems hread hnoted

/-- Variables that hide definitions, the least integer, and all characters that need an escape. -/
def sample : Module where
  name := "Sample"
  datatypes := [⟨"Bool", [("False", 0), ("True", 0)]⟩, ⟨"List", [("Nil", 0), ("Cons", 2)]⟩]
  defs :=
    [⟨"main", [], .letRec
        [("xs", .app (.app (.con 1 2) (.lit (.int Int64.minValue))) (.var "xs")),
          ("f", .lam "main" (.app (.var "main") (.global "x'")))]
        (.caseOf (.app (.var "f") (.prim .sub)) [0, 2]
          [⟨1, ["x'", "_y"], .letIn "in'" (.var "x'") (.app (.comb .ioReturn) (.var "in'"))⟩]
          (some (.lit (.char '\''))))⟩,
      ⟨"x'", ["x", "main"], .app (.var "main") (.app (.lit (.str "\n\t\r\x00\\\"' é")) (.global "x'"))⟩]

theorem printable_sample : sample.Printable := by
  refine ⟨by decide, by decide, ?_⟩
  simp only [sample, forall_mem_cons, not_mem_nil, false_implies, implies_true, and_true]
  have hglobal : ∃ d ∈ sample.defs, d.name = "x'" := ⟨_, mem_cons_of_mem _ mem_cons_self, rfl⟩
  refine ⟨⟨by decide, by decide, ?_⟩, by decide, by decide, ?_⟩
  · refine .letRec (cons_ne_nil _ _) (by decide)
      (forall_mem_cons.2 ⟨?_, forall_mem_singleton.2 ?_⟩) ?_
    · exact .app (.app (.con ⟨_, mem_cons_of_mem _ mem_cons_self, "Cons", rfl⟩) (.int _))
        (.var (by decide) (by decide))
    · exact .lam (by decide) (.app (.var (by decide) (by decide)) (.global (by decide) (by decide) hglobal))
    · refine .caseOf ⟨_, mem_cons_of_mem _ mem_cons_self, rfl⟩ (cons_ne_nil _ _)
        (forall_mem_singleton.2 ⟨2, rfl, rfl⟩) (forall_mem_singleton.2 (by decide))
        (.app (.var (by decide) (by decide)) (.prim _)) (forall_mem_singleton.2 ?_) ?_
      · exact .letIn (by decide) (.var (by decide) (by decide))
          (.app (.comb rfl) (.var (by decide) (by decide)))
      · intro e he
        obtain rfl := Option.some.inj he
        exact .char _
  · exact .app (.var (by decide) (by decide)) (.app (.str _) (.global (by decide) (by decide) hglobal))

theorem read_source_sample :
    sample.Printable ∧
    sample.source = "data Bool = False 0 | True 0 data List = Nil 0 | Cons 2 " ++
      "def main = ( letrec xs = ( ( Cons -9223372036854775808 ) xs ) ; f = ( \\ main -> ( main x' ) ) in " ++
      "( case ( f #- ) of \x7b Cons x' _y -> ( let in' = x' in ( #IO.return in' ) ) ; _ -> '\\'' \x7d ) ) " ++
      "def x' x main = ( main ( \"\\n\\t\\r\\0\\\\\\\"\\' é\" x' ) )" ∧
    Module.read "Sample" sample.source = .ok sample :=
  ⟨printable_sample, by decide +kernel, read_source printable_sample⟩

end Module

end GraphReduction
