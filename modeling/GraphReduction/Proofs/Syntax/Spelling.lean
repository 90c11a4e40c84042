import GraphReduction.Core.Rename
import GraphReduction.Proofs.Syntax.Pieces
import GraphReduction.Syntax.Read

/-!
# How names are spelled

The names that compilation makes up contain `$`, which no name of a source text does.
-/

namespace GraphReduction

open List

/-- Binders have `B`. -/
inductive Expr.Spelled (B : Name → Prop) : Expr → Prop where
  | var (x) : Spelled B (.var x)
  | global (x) : Spelled B (.global x)
  | lit (l) : Spelled B (.lit l)
  | prim (p) : Spelled B (.prim p)
  | comb (c) : Spelled B (.comb c)
  | con (tag arity) : Spelled B (.con tag arity)
  | app {f a} : Spelled B f → Spelled B a → Spelled B (.app f a)
  | lam {x body} : B x → Spelled B body → Spelled B (.lam x body)
  | letIn {x rhs body} : Spelled B rhs → B x → Spelled B body → Spelled B (.letIn x rhs body)
  | letRec {binds body} : (∀ b ∈ binds, B b.1) → (∀ b ∈ binds, Spelled B b.2) →
      Spelled B body → Spelled B (.letRec binds body)
  | caseOf {scrut arities alts other} : Spelled B scrut →
      (∀ alt ∈ alts, ∀ x ∈ alt.binders, B x) → (∀ alt ∈ alts, Spelled B alt.body) →
      (∀ e, other = some e → Spelled B e) → Spelled B (.caseOf scrut arities alts other)

/-- A name without the mark of names that are made up. -/
def Plain (x : Name) : Prop := '$' ∉ x.toList

theorem Plain.baseName_ne {x : Name} (h : Plain x) : baseName x ≠ "$d" := by
  intro heq
  have hlist := congrArg String.toList heq
  unfold baseName at hlist
  rw [String.toList_ofList] at hlist
  have hmark : '$' ∈ x.toList.takeWhile (· != '~') := by
    rw [hlist]
    exact mem_cons_self
  exact h (( takeWhile_prefix _).subset hmark)

/-- An identifier is plain. -/
def Token.Named (t : Token) : Prop := t.kind = .identifier → Plain t.lexeme

theorem Expr.Spelled.imp {B B' : Name → Prop} {e : Expr} (h : e.Spelled B) (hB : ∀ x, B x → B' x) :
    e.Spelled B' := by
  induction h with
  | var _ | global _ | lit _ | prim _ | comb _ | con _ _ => constructor
  | app _ _ ihf iha => exact .app ihf iha
  | lam hx _ ih => exact .lam (hB _ hx) ih
  | letIn _ hx _ ihr ihb => exact .letIn ihr (hB _ hx) ihb
  | letRec hnames _ _ ihbinds ihbody =>
    exact .letRec (fun b hb => hB _ (hnames b hb)) ihbinds ihbody
  | caseOf _ hbinders _ _ ihs ihalts ihother =>
    exact .caseOf ihs (fun alt halt x hx => hB x (hbinders alt halt x hx)) ihalts ihother

theorem Expr.Spelled.lams {B : Name → Prop} {e : Expr} (h : e.Spelled B) {xs : List Name}
    (hxs : ∀ x ∈ xs, B x) : (Expr.lams xs e).Spelled B := by
  induction xs with
  | nil => exact h
  | cons x xs ih =>
    obtain ⟨hx, hxs⟩ := forall_mem_cons.1 hxs
    exact .lam hx (ih hxs)

/-- **An identifier is spelled without `$`.** -/
theorem named_of_tokenize {source : String} {ts : List Token} (h : tokenize source = .ok ts) :
    ∀ t ∈ ts, t.Named := by
  obtain ⟨pieces, -, rfl, hpieces⟩ := covers_of_tokenize h
  intro t ht hkind
  rcases mem_append.1 ht with ht | ht
  · obtain ⟨p, hp, hpt⟩ := mem_filterMap.1 ht
    obtain ⟨front, back, rfl⟩ := append_of_mem hp
    have hstands := hpieces front p back rfl
    cases p with
    | blank _ | comment _ => cases hpt
    | token t =>
      cases hpt
      obtain ⟨-, c, cs, hlexeme, -, hscan⟩ := hstands
      obtain ⟨hc, hn⟩ := (Scan.lexeme_isLexeme hscan).identifier (congrArg some hkind)
      have htake := Scan.take_length_takeWhile Scan.inName (cs ++ back.flatMap Piece.text)
      rw [← hn, take_left] at htake
      have hmark : ∀ x ∈ cs, x ≠ '$' := by
        rintro x hx rfl
        rw [htake] at hx
        exact absurd (mem_takeWhile_imp hx) (by decide)
      show '$' ∉ t.lexeme.toList
      rw [hlexeme, mem_cons]
      exact not_or.2 ⟨Ne.symm hc, fun hmem => hmark _ hmem rfl⟩
  · rw [mem_singleton.1 ht] at hkind
    cases hkind

end GraphReduction
