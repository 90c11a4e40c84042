import GraphReduction.Heap.Cell

/-!
# Values

Fully evaluated results.
-/

namespace GraphReduction

inductive Value where
  | int (n : Int64)
  | char (c : Char)
  | double (x : Double)
  | ptr (address : UInt64)
  /-- A string literal that was never unpacked. -/
  | str (s : String)
  | con (tag : UInt32) (fields : List Value)
  /-- A partial application, as it is described to the user. -/
  | function (what : String)

instance : Inhabited Value := ⟨.int 0⟩

namespace Value

def ofBool (b : Bool) : Value := con (if b then 1 else 0) []

/-- A list, made of constructors with tag 1 for a cell and tag 0 for the end. -/
def ofList : List Value → Value
  | [] => con 0 []
  | v :: vs => con 1 [v, ofList vs]

def ofString (s : String) : Value := ofList (s.toList.map char)

/-- The elements of a list, after those in `front`, the last of which comes first. -/
def elements? (front : List Value) : Value → Option (List Value)
  | con tag [] => if tag = 0 then some front.reverse else none
  | con tag [v, rest] => if tag = 1 then rest.elements? (v :: front) else none
  | _ => none

/-- The elements of a list. -/
def toList? (v : Value) : Option (List Value) := v.elements? []

def toChar? : Value → Option Char
  | char c => some c
  | _ => none

/-- The text of a string literal or of a list of characters. -/
def toString? : Value → Option String
  | str s => some s
  | v => (v.toList?.bind fun vs => vs.mapM toChar?).map String.ofList

mutual

/-- The text of a value. A list is written in brackets, and a list of characters as a string. -/
def render : Value → String
  | int n => renderInt n
  | char c => Text.quoteChar c
  | double x => x.render .literal
  | ptr address => renderPtr address
  | str s => Text.quoteString s
  | function what => "<function " ++ what ++ ">"
  | con tag fields =>
    let isList := ((con tag fields).toList?.map (!·.isEmpty)).getD false
    match isList, (con tag fields).toString? with
    | true, some s => Text.quoteString s
    | true, none => "[" ++ ", ".intercalate (renderElements [] (con tag fields)) ++ "]"
    | false, _ =>
      if fields.isEmpty then "Con" ++ toString tag.toNat
      else "(Con" ++ toString tag.toNat ++ renderFields fields ++ ")"

/-- The texts of the elements of a list, after those in `front`, the last of which comes
first. -/
def renderElements (front : List String) : Value → List String
  | con _ [v, rest] => rest.renderElements (v.render :: front)
  | _ => front.reverse

def renderFields : List Value → String
  | [] => ""
  | v :: vs => " " ++ v.render ++ renderFields vs

end

/-- The total size of the first components of a list of pairs. -/
noncomputable def leftSize : List (Value × Value) → Nat
  | [] => 0
  | (v, _) :: rest => sizeOf v + leftSize rest

theorem leftSize_append (ps qs : List (Value × Value)) :
    leftSize (ps ++ qs) = leftSize ps + leftSize qs := by
  induction ps with
  | nil => simp [leftSize]
  | cons p ps ih => simp [leftSize, ih, Nat.add_assoc]

/-- The first components of a zip are no larger than the list they come from. -/
theorem leftSize_zip_le (vs ws : List Value) : leftSize (vs.zip ws) ≤ sizeOf vs := by
  induction vs generalizing ws with
  | nil => simp [leftSize]
  | cons v vs ih =>
    cases ws with
    | nil => simp [leftSize]
    | cons w ws =>
      have := ih ws
      simp only [List.zip_cons_cons, leftSize, List.cons.sizeOf_spec]
      omega

theorem leftSize_lt_cons (v w : Value) (rest : List (Value × Value)) :
    leftSize rest < leftSize ((v, w) :: rest) := by
  have : 0 < sizeOf v := by cases v <;> grind
  simp only [leftSize]
  omega

theorem leftSize_fields_lt (tag : UInt32) (vs ws : List Value) (w : Value)
    (rest : List (Value × Value)) :
    leftSize (vs.zip ws ++ rest) < leftSize ((con tag vs, w) :: rest) := by
  have := leftSize_zip_le vs ws
  simp only [leftSize_append, leftSize, con.sizeOf_spec]
  omega

/-- Whether the values in each pair are the same. Doubles are compared as numbers. -/
def allSame : List (Value × Value) → Bool
  | [] => true
  | (v, w) :: rest =>
    match v, w with
    | int m, int n => m == n && allSame rest
    | char c, char d => c == d && allSame rest
    | double x, double y => x.numEq y && allSame rest
    | ptr a, ptr b => a == b && allSame rest
    | str s, str t => s == t && allSame rest
    | function f, function g => f == g && allSame rest
    | con t vs, con u ws =>
      t == u && vs.length == ws.length && allSame (vs.zip ws ++ rest)
    | _, _ => false
termination_by pairs => leftSize pairs
decreasing_by
  all_goals first
    | exact leftSize_lt_cons ..
    | exact leftSize_fields_lt ..

def same (v w : Value) : Bool := allSame [(v, w)]

end Value

end GraphReduction
