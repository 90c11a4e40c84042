import GraphReduction.Proofs.Core.Induction
import GraphReduction.Proofs.Syntax.Words

/-!
# Writing modules

The text of a module in the language that modules are read from: the data declarations come first, every
compound expression is in parentheses, and there is a blank between any two words.
-/

namespace GraphReduction

open List

namespace Word

open Scan

/-- Clauses with a sign between them. -/
def separated (sep : Word) : List (List Word) → List Word
  | [] => []
  | [clause] => clause
  | clause :: clause' :: clauses => clause ++ sep :: separated sep (clause' :: clauses)

def parens (ws : List Word) : List Word := sign .leftParen :: (ws ++ [sign .rightParen])

def literal : Literal → Word
  | .int n => int n
  | .char c => char c
  | .double x => ⟨.double x, x.render .literal⟩
  | .str s => string s

/-- Words that are all scanned as such. -/
def AllScan (ws : List Word) : Prop := ∀ w ∈ ws, w.Scans

namespace AllScan

variable {w : Word} {ws ws' : List Word} {clauses : List (List Word)}

theorem nil : AllScan [] := forall_mem_nil _

theorem cons (hw : w.Scans) (h : AllScan ws) : AllScan (w :: ws) := forall_mem_cons.2 ⟨hw, h⟩

theorem one (hw : w.Scans) : AllScan [w] := cons hw nil

theorem sign {kind : TokenKind} (hkind : kind ∈ signs) (h : AllScan ws) : AllScan (Word.sign kind :: ws) :=
  cons (scans_sign hkind) h

theorem append (h : AllScan ws) (h' : AllScan ws') : AllScan (ws ++ ws') :=
  forall_mem_append.2 ⟨h, h'⟩

theorem flatMap {α : Type} {f : α → List Word} {xs : List α} (h : ∀ x ∈ xs, AllScan (f x)) :
    AllScan (xs.flatMap f) := by
  intro w hw
  obtain ⟨x, hx, hw⟩ := mem_flatMap.1 hw
  exact h x hx w hw

theorem parens (h : AllScan ws) : AllScan (Word.parens ws) :=
  sign (by decide) (h.append (one (scans_sign (by decide))))

theorem separated {kind : TokenKind} (hkind : kind ∈ signs) (h : ∀ clause ∈ clauses, AllScan clause) :
    AllScan (Word.separated (Word.sign kind) clauses) := by
  induction clauses with
  | nil => exact nil
  | cons clause clauses ih =>
    obtain ⟨hclause, hclauses⟩ := forall_mem_cons.1 h
    cases clauses with
    | nil => exact hclause
    | cons clause' clauses => exact hclause.append (sign hkind (ih hclauses))

theorem identifiers {xs : List Name} (h : ∀ x ∈ xs, IsIdentifier x) : AllScan (xs.map identifier) := by
  intro w hw
  obtain ⟨x, hx, rfl⟩ := mem_map.1 hw
  exact scans_name (h x hx)

end AllScan

theorem scans_primitive_name (p : Primitive) : (primitive p.name).Scans := by
  have hname : p.name ≠ "" ∧ p.name.toList.all inPrimitive = true := by
    cases p <;> decide
  exact scans_primitive hname.1 (all_eq_true.1 hname.2)

theorem scans_primitive_render {c : Combinator} (h : c.isAction = true) : (primitive c.render).Scans := by
  have hname : c.render ≠ "" ∧ c.render.toList.all inPrimitive = true := by
    cases c with
    | ioBind | ioThen | ioReturn => decide
    | _ => cases h
  exact scans_primitive hname.1 (all_eq_true.1 hname.2)

end Word

/-!
## Constructors by their tags
-/

namespace DataDecl

/-- The constructor for a tag and a number of fields, of the first type that has one. -/
def nameOf (ds : List DataDecl) (tag arity : UInt32) : Name :=
  ((ds.filterMap fun d => d.constructors[tag.toNat]?).find? fun c => c.2 == arity).elim "" Prod.fst

/-- The constructor for a tag, of the first type with these numbers of fields. -/
def nameIn (ds : List DataDecl) (arities : List UInt32) (tag : UInt32) : Name :=
  ((ds.find? fun d => d.arities == arities).bind fun d => d.constructors[tag.toNat]?).elim "" Prod.fst

variable {ds : List DataDecl} {tag arity : UInt32} {arities : List UInt32}

theorem nameOf_spec (h : ∃ d ∈ ds, ∃ x, d.constructors[tag.toNat]? = some (x, arity)) :
    ∃ d ∈ ds, d.constructors[tag.toNat]? = some (nameOf ds tag arity, arity) := by
  obtain ⟨d, hd, x, hx⟩ := h
  unfold nameOf
  cases hfind : (ds.filterMap fun d => d.constructors[tag.toNat]?).find? fun c => c.2 == arity with
  | none =>
    have hno := find?_eq_none.1 hfind (x, arity) (mem_filterMap.2 ⟨d, hd, hx⟩)
    exact absurd (beq_self_eq_true arity) hno
  | some c =>
    obtain ⟨d', hd', hc⟩ := mem_filterMap.1 (mem_of_find?_eq_some hfind)
    have harity : c.2 = arity := by simpa using find?_some hfind
    exact ⟨d', hd', by rw [hc, ← harity]; rfl⟩

theorem nameIn_spec (h : ∃ d ∈ ds, d.arities = arities) :
    ∃ d ∈ ds, d.arities = arities ∧ ∀ tag k, arities[UInt32.toNat tag]? = some k →
      d.constructors[tag.toNat]? = some (nameIn ds arities tag, k) := by
  obtain ⟨d, hd, harities⟩ := h
  cases hfind : ds.find? fun d => d.arities == arities with
  | none => exact absurd (beq_iff_eq.2 harities) (find?_eq_none.1 hfind d hd)
  | some d' =>
    have harities' : d'.arities = arities := by simpa using find?_some hfind
    refine ⟨d', mem_of_find?_eq_some hfind, harities', fun tag k hk => ?_⟩
    rw [← harities', DataDecl.arities, getElem?_map, Option.map_eq_some_iff] at hk
    obtain ⟨c, hc, rfl⟩ := hk
    rw [nameIn, hfind, Option.bind_some, hc]
    rfl

/-- `data Name = Con k | …`. -/
def words (d : DataDecl) : List Word :=
  .sign .kwData :: .constructor d.name :: .sign .equal ::
    Word.separated (.sign .bar)
      (d.constructors.map fun c => [.constructor c.1, .int (Int64.ofNat c.2.toNat)])

end DataDecl

/-!
## Expressions
-/

namespace Expr

open Word

mutual

/-- The words of an expression. -/
def words (ds : List DataDecl) : Expr → List Word
  | var x | global x => [identifier x]
  | lit l => [literal l]
  | prim p => [primitive p.name]
  | comb c => [primitive c.render]
  | con tag arity => [constructor (DataDecl.nameOf ds tag arity)]
  | app f a => parens (f.words ds ++ a.words ds)
  | lam x body => parens (sign .backslash :: identifier x :: sign .arrow :: body.words ds)
  | letIn x rhs body =>
    parens (sign .kwLet :: identifier x :: sign .equal :: (rhs.words ds ++ sign .kwIn :: body.words ds))
  | letRec binds body =>
    parens (sign .kwLetRec :: (separated (sign .semicolon) (bindClauses ds binds) ++
      sign .kwIn :: body.words ds))
  | caseOf scrut arities alts other =>
    parens (sign .kwCase :: (scrut.words ds ++ sign .kwOf :: sign .leftBrace ::
      (separated (sign .semicolon) (altClauses ds arities alts ++ otherClause ds other) ++
        [sign .rightBrace])))

/-- `x = e`. -/
def bindClauses (ds : List DataDecl) : List (Name × Expr) → List (List Word)
  | [] => []
  | (x, rhs) :: binds => (identifier x :: sign .equal :: rhs.words ds) :: bindClauses ds binds

/-- `Con x y -> e`. -/
def altClauses (ds : List DataDecl) (arities : List UInt32) : List (Alt Expr) → List (List Word)
  | [] => []
  | ⟨tag, binders, body⟩ :: alts =>
    (constructor (DataDecl.nameIn ds arities tag) :: (binders.map identifier ++
      sign .arrow :: body.words ds)) :: altClauses ds arities alts

/-- `_ -> e`. -/
def otherClause (ds : List DataDecl) : Option Expr → List (List Word)
  | none => []
  | some e => [sign .underscore :: sign .arrow :: e.words ds]

end

/-- **An expression with a text of its own**, in the scope of the variables `Γ`. `D` holds of top-level names,
and `ds` are the declared types. -/
inductive Printable (ds : List DataDecl) (D : Name → Prop) : List Name → Expr → Prop where
  | var {Γ x} : IsIdentifier x → x ∈ Γ → Printable ds D Γ (.var x)
  | global {Γ x} : IsIdentifier x → x ∉ Γ → D x → Printable ds D Γ (.global x)
  | int {Γ} (n) : Printable ds D Γ (.lit (.int n))
  | char {Γ} (c) : Printable ds D Γ (.lit (.char c))
  | str {Γ} (s) : Printable ds D Γ (.lit (.str s))
  | prim {Γ} (p) : Printable ds D Γ (.prim p)
  | comb {Γ c} : c.isAction = true → Printable ds D Γ (.comb c)
  | con {Γ tag arity} : (∃ d ∈ ds, ∃ x, d.constructors[tag.toNat]? = some (x, arity)) →
      Printable ds D Γ (.con tag arity)
  | app {Γ f a} : Printable ds D Γ f → Printable ds D Γ a → Printable ds D Γ (.app f a)
  | lam {Γ x body} : IsIdentifier x → Printable ds D (x :: Γ) body → Printable ds D Γ (.lam x body)
  | letIn {Γ x rhs body} : IsIdentifier x → Printable ds D Γ rhs → Printable ds D (x :: Γ) body →
      Printable ds D Γ (.letIn x rhs body)
  | letRec {Γ binds body} : binds ≠ [] → (∀ b ∈ binds, IsIdentifier b.1) →
      (∀ b ∈ binds, Printable ds D (binds.map Prod.fst ++ Γ) b.2) →
      Printable ds D (binds.map Prod.fst ++ Γ) body → Printable ds D Γ (.letRec binds body)
  | caseOf {Γ scrut arities alts other} : (∃ d ∈ ds, d.arities = arities) → alts ≠ [] →
      (∀ alt ∈ alts, ∃ k, arities[alt.tag.toNat]? = some k ∧ alt.binders.length = k.toNat) →
      (∀ alt ∈ alts, ∀ x ∈ alt.binders, IsIdentifier x) → Printable ds D Γ scrut →
      (∀ alt ∈ alts, Printable ds D (alt.binders ++ Γ) alt.body) →
      (∀ e, other = some e → Printable ds D Γ e) → Printable ds D Γ (.caseOf scrut arities alts other)

variable {ds : List DataDecl}

theorem bindClauses_eq (binds : List (Name × Expr)) :
    bindClauses ds binds = binds.map fun b => identifier b.1 :: sign .equal :: b.2.words ds := by
  induction binds with
  | nil => rfl
  | cons b binds ih => rw [bindClauses, ih, map_cons]

theorem altClauses_eq (arities : List UInt32) (alts : List (Alt Expr)) :
    altClauses ds arities alts = alts.map fun alt =>
      constructor (DataDecl.nameIn ds arities alt.tag) :: (alt.binders.map identifier ++
        sign .arrow :: alt.body.words ds) := by
  induction alts with
  | nil => rfl
  | cons alt alts ih => rw [altClauses, ih, map_cons]

/-- **The words of an expression are scanned as such.** -/
theorem Printable.scans {D : Name → Prop} {Γ : List Name} {e : Expr} (h : e.Printable ds D Γ)
    (hds : ∀ d ∈ ds, ∀ c ∈ d.constructors, IsConstructor c.1) : AllScan (e.words ds) := by
  have hname : ∀ {d : DataDecl} {i : Nat} {x : Name} {k : UInt32}, d ∈ ds →
      d.constructors[i]? = some (x, k) → (constructor x).Scans :=
    fun hd hc => scans_name (hds _ hd _ (mem_of_getElem? hc))
  induction h with
  | var hx _ => exact .one (scans_name hx)
  | global hx _ _ => exact .one (scans_name hx)
  | int n => exact .one (scans_int n)
  | char c => exact .one (scans_char c)
  | str s => exact .one (scans_string s)
  | prim p => exact .one (scans_primitive_name p)
  | comb hc => exact .one (scans_primitive_render hc)
  | con hdeclared =>
    obtain ⟨d, hd, hc⟩ := DataDecl.nameOf_spec hdeclared
    exact .one (hname hd hc)
  | app _ _ ihf iha => exact .parens (ihf.append iha)
  | lam hx _ ih => exact .parens (.sign (by decide) (.cons (scans_name hx) (.sign (by decide) ih)))
  | letIn hx _ _ ihr ihb =>
    refine .parens (.sign (by decide) (.cons (scans_name hx) (.sign (by decide) ?_)))
    exact ihr.append (.sign (by decide) ihb)
  | letRec _ hnames _ _ ihbinds ihbody =>
    refine .parens (.sign (by decide) (.append (.separated (by decide) ?_) (.sign (by decide) ihbody)))
    rw [bindClauses_eq, forall_mem_map]
    exact fun b hb => .cons (scans_name (hnames b hb)) (.sign (by decide) (ihbinds b hb))
  | @caseOf Γ scrut arities alts other hdeclared _ hfits hbinders _ _ _ ihs ihalts ihother =>
    obtain ⟨d, hd, -, hnames⟩ := DataDecl.nameIn_spec hdeclared
    have hclauses : ∀ clause ∈ altClauses ds arities alts ++ otherClause ds other, AllScan clause := by
      rw [forall_mem_append, altClauses_eq, forall_mem_map]
      refine ⟨fun alt halt => ?_, ?_⟩
      · obtain ⟨k, hk, -⟩ := hfits alt halt
        exact .cons (hname hd (hnames _ _ hk))
          (.append (.identifiers (hbinders alt halt)) (.sign (by decide) (ihalts alt halt)))
      · cases other with
        | none => exact forall_mem_nil _
        | some e =>
          exact forall_mem_singleton.2 (.sign (by decide) (.sign (by decide) (ihother e rfl)))
    refine .parens (.sign (by decide) (ihs.append (.sign (by decide) (.sign (by decide) ?_))))
    exact .append (.separated (by decide) hclauses) (.one (scans_sign (by decide)))

end Expr

/-!
## Modules
-/

/-- `def name params = e`. -/
def Binding.words (ds : List DataDecl) (d : Binding Expr) : List Word :=
  .sign .kwDef :: .identifier d.name :: (d.params.map .identifier ++ .sign .equal :: d.body.words ds)

namespace Module

def words (m : Module) : List Word :=
  m.datatypes.flatMap DataDecl.words ++ m.defs.flatMap (Binding.words m.datatypes)

/-- The text of a module. -/
def source (m : Module) : String := sentence m.words

/-- **A module with a text of its own.** -/
structure Printable (m : Module) : Prop where
  types : ∀ d ∈ m.datatypes, IsConstructor d.name ∧ d.constructors ≠ [] ∧
    ∀ c ∈ d.constructors, IsConstructor c.1
  distinct : (m.datatypes.flatMap fun d => d.constructors.map Prod.fst).Nodup
  defs : ∀ d ∈ m.defs, IsIdentifier d.name ∧ (∀ x ∈ d.params, IsIdentifier x) ∧
    d.body.Printable m.datatypes (fun x => ∃ d ∈ m.defs, d.name = x) d.params

open Word

variable {m : Module}

/-- **The text of a module is cut into its words.** -/
theorem Printable.scans (h : m.Printable) : AllScan m.words := by
  refine .append (.flatMap fun d hd => ?_) (.flatMap fun d hd => ?_)
  · obtain ⟨hname, -, hcons⟩ := h.types d hd
    refine .sign (by decide) (.cons (scans_name hname) (.sign (by decide) (.separated (by decide) ?_)))
    rw [forall_mem_map]
    exact fun c hc => .cons (scans_name (hcons c hc)) (.one (scans_int _))
  · obtain ⟨hname, hparams, hbody⟩ := h.defs d hd
    refine .sign (by decide) (.cons (scans_name hname) (.append (.identifiers hparams) ?_))
    refine .sign (by decide) ?_
    exact hbody.scans fun d hd => (h.types d hd).2.2

end Module

end GraphReduction
