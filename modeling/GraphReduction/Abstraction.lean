import GraphReduction.Term

/-!
# Bracket abstraction

`[x]e` is a term without `x` that, applied to `x`, behaves like `e`. At every application the
combinator is chosen that keeps the most structure:

* `[x]x = I`
* `[x](f x) = f`, if `x` is not in `f`
* `[x](f a) = B' f p q`, if only `a` has `x` and `[x]a = B p q`; else `B f [x]a`
* `[x](f a) = C' p q a`, if only `f` has `x` and `[x]f = B p q`; else `C [x]f a`
* `[x](f a) = S' p q [x]a`, if both have `x` and `[x]f = B p q`; else `S [x]f [x]a`

A subterm without `x` is used as it is, so a shared node stays shared.
-/

namespace GraphReduction

namespace Term

/-- The parts `p` and `q` of a term `B p q`. -/
def compositionParts? : Term → Option (Term × Term)
  | app _ (app _ (leaf _ (.comb .B)) p) q => some (p, q)
  | _ => none

/-- `[x]e`, or nothing if `x` does not occur in `e`. -/
def abstractVar (x : Name) : Term → Fresh (Option Term)
  | leaf _ (.var y) =>
    if x = y then some <$> newComb .I [] else return none
  | leaf .. => return none
  | app _ f a => do
    let abstractedF ← f.abstractVar x
    let abstractedA ← a.abstractVar x
    match abstractedF, abstractedA with
    | none, none => return none
    | none, some a' =>
      if a.isVar x then return some f
      match a'.compositionParts? with
      | some (p, q) => some <$> newComb .B' [f, p, q]
      | none => some <$> newComb .B [f, a']
    | some f', none =>
      match f'.compositionParts? with
      | some (p, q) => some <$> newComb .C' [p, q, a]
      | none => some <$> newComb .C [f', a]
    | some f', some a' =>
      match f'.compositionParts? with
      | some (p, q) => some <$> newComb .S' [p, q, a']
      | none => some <$> newComb .S [f', a']

/-- `[x]e`, being `K e` when `x` does not occur in `e`. -/
def bracket (x : Name) (e : Term) : Fresh Term := do
  match ← e.abstractVar x with
  | some t => return t
  | none => newComb .K [e]

/-- `[x₁]([x₂](… e))`. -/
def bracketAll : List Name → Term → Fresh Term
  | [], e => return e
  | x :: xs, e => do
    let t ← e.bracketAll xs
    t.bracket x
termination_by structural xs => xs

end Term

end GraphReduction
