import GraphReduction.Syntax.Expr
import GraphReduction.Syntax.Scan
import Mathlib

/-!
# Words

A word is a token without its place. Words are written one after the other with blanks in between, and
scanning cuts such a text into the same words again.
-/

namespace GraphReduction

open List

/-- What a token is and how it is spelled. -/
structure Word where
  kind : TokenKind
  text : String
deriving DecidableEq

def Token.word (t : Token) : Word := ⟨t.kind, t.lexeme⟩

/-- Whether a name that is written is an identifier or a constructor, if it can be written and is no
keyword. -/
def nameKind? (x : Name) : Option TokenKind :=
  match x.toList with
  | [] => none
  | c :: cs =>
    if (Text.isAlphabetic c || c == '_') && cs.all Scan.inName && (TokenKind.ofKeyword? x).isNone then
      some (if Text.isUppercase c then .constructor else .identifier)
    else none

/-- A name that is read as that of a variable. -/
def IsIdentifier (x : Name) : Prop := nameKind? x = some .identifier

/-- A name that is read as that of a constructor. -/
def IsConstructor (x : Name) : Prop := nameKind? x = some .constructor

instance (x : Name) : Decidable (IsIdentifier x) := inferInstanceAs (Decidable (_ = _))

instance (x : Name) : Decidable (IsConstructor x) := inferInstanceAs (Decidable (_ = _))

namespace Word

def identifier (x : Name) : Word := ⟨.identifier, x⟩

def constructor (x : Name) : Word := ⟨.constructor, x⟩

/-- A keyword, a bracket or another sign. -/
def sign (kind : TokenKind) : Word := ⟨kind, kind.describe⟩

def primitive (name : String) : Word := ⟨.primitive name, "#" ++ name⟩

def int (n : Int64) : Word := ⟨.int n, renderInt n⟩

/-- How a character is written in a literal. -/
def escape (c : Char) : List Char :=
  if c = '\n' then ['\\', 'n']
  else if c = '\t' then ['\\', 't']
  else if c = '\r' then ['\\', 'r']
  else if c = '\x00' then ['\\', '0']
  else if c = '\\' then ['\\', '\\']
  else if c = '"' then ['\\', '"']
  else if c = '\'' then ['\\', '\'']
  else [c]

def char (c : Char) : Word := ⟨.char c, String.ofList ('\'' :: (escape c ++ ['\'']))⟩

def string (s : String) : Word := ⟨.string s, String.ofList ('"' :: (s.toList.flatMap escape ++ ['"']))⟩

/-- What stands after a word: nothing, or a blank. -/
def Spaced (cs : List Char) : Prop := cs = [] ∨ ∃ rest, cs = ' ' :: rest

/-- **A word that is scanned as such**, whatever follows after a blank. -/
def Scans (w : Word) : Prop :=
  ∃ c cs, w.text.toList = c :: cs ∧ c ≠ '\n' ∧
    ∀ tail, Spaced tail → Scan.lexeme c (cs ++ tail) = .ok (some w.kind, cs.length)

end Word

/-!
## Scanning up to a blank
-/

namespace Scan

open Word

variable {c : Char} {cs tail : List Char} {p : Char → Bool}

theorem takeWhile_spaced (hcs : ∀ c ∈ cs, p c = true) (hblank : p ' ' = false)
    (htail : Spaced tail) : (cs ++ tail).takeWhile p = cs := by
  rw [takeWhile_append_of_pos hcs]
  rcases htail with rfl | ⟨rest, rfl⟩
  · rw [takeWhile_nil, append_nil]
  · rw [takeWhile_cons, hblank, if_neg Bool.false_ne_true, append_nil]

/-- The characters that are not looked up in a class. -/
def special : List Char :=
  ['(', ')', '\x7b', '\x7d', ';', '|', '=', '\\', '-', '#', ' ', '\t', '\r', '\n', '"', '\'']

theorem lexeme_of_class (hc : c ∉ special) (cs : List Char) : lexeme c cs =
    if c.isDigit then number c cs
    else if Text.isAlphabetic c || c == '_' then word c cs
    else .error (0, .unexpected c) := by
  have hne : ∀ s ∈ special, c ≠ s := by
    rintro s hs rfl
    exact hc hs
  iterate 10 refine (if_neg (hne _ (by decide))).trans ?_
  refine (if_neg ?_).trans ?_
  · simp [hne ' ' (by decide), hne '\t' (by decide), hne '\r' (by decide), hne '\n' (by decide)]
  iterate 2 refine (if_neg (hne _ (by decide))).trans ?_
  rfl

theorem lexeme_minus (cs : List Char) : lexeme '-' cs = minus cs := rfl

theorem lexeme_hash (cs : List Char) : lexeme '#' cs = primitive cs := rfl

theorem lexeme_quote (cs : List Char) : lexeme '\'' cs = charBody cs := rfl

theorem lexeme_doubleQuote (cs : List Char) : lexeme '"' cs = stringBody 0 [] cs := rfl

theorem notMem_special (hspecial : special.any p = false) (hc : p c = true) : c ∉ special := by
  intro hmem
  exact any_eq_false.1 hspecial c hmem hc

theorem isAlphabetic_of_isDigit (hc : c.isDigit = true) :
    (Text.isAlphabetic c || c == '_') = false := by
  simp only [Char.isDigit, Bool.and_eq_true, decide_eq_true_eq, ge_iff_le, UInt32.le_iff_toNat_le] at hc
  obtain ⟨hge, hle⟩ : 48 ≤ c.val.toNat ∧ c.val.toNat ≤ 57 := hc
  have hascii : c.toNat < 128 := show c.val.toNat < 128 by omega
  have hne : c ≠ '_' := by
    rintro rfl
    exact absurd hle (by decide)
  have halpha : c.isAlpha = false := by
    rw [← Bool.not_eq_true]
    intro h
    simp only [Char.isAlpha, Char.isUpper, Char.isLower, Bool.or_eq_true, Bool.and_eq_true,
      decide_eq_true_eq, ge_iff_le, UInt32.le_iff_toNat_le] at h
    rcases h with ⟨h, -⟩ | ⟨h, -⟩
    · exact absurd (show 65 ≤ c.val.toNat from h) (by omega)
    · exact absurd (show 97 ≤ c.val.toNat from h) (by omega)
  rw [Text.isAlphabetic, if_pos hascii, halpha, beq_eq_false_iff_ne.2 hne]
  rfl

theorem lexeme_eq_number (hc : c.isDigit = true) (cs : List Char) : lexeme c cs = number c cs := by
  rw [lexeme_of_class (notMem_special (by decide) hc), if_pos hc]

theorem lexeme_eq_word (hc : (Text.isAlphabetic c || c == '_') = true) (cs : List Char) :
    lexeme c cs = word c cs := by
  have hdigit : ¬ c.isDigit = true := by
    intro hdigit
    rw [isAlphabetic_of_isDigit hdigit] at hc
    cases hc
  rw [lexeme_of_class (notMem_special (p := fun c => Text.isAlphabetic c || c == '_') (by decide) hc),
    if_neg hdigit, if_pos hc]

theorem number_spaced (first : Char) (hcs : ∀ c ∈ cs, c.isDigit = true) (htail : Spaced tail) {n : Int64}
    (h : intLiteral? (first == '-') (digitsValue (if first == '-' then cs else first :: cs)) = some n) :
    number first (cs ++ tail) = .ok (some (.int n), cs.length) := by
  unfold number
  simp only [takeWhile_spaced hcs (by decide) htail, drop_left]
  rcases htail with rfl | ⟨rest, rfl⟩
  · simp only [h]
  · simp only [h]
    rfl

theorem intLiteral?_toInt (n : Int64) {negative : Bool} {magnitude : Nat}
    (h : (if negative then -(magnitude : Int) else magnitude) = n.toInt) :
    intLiteral? negative magnitude = some n := by
  unfold intLiteral?
  simp only [h]
  rw [if_pos, Int64.ofInt_toInt]
  simp only [Bool.and_eq_true, decide_eq_true_eq]
  exact ⟨Int64.minValue_le_toInt n, Int64.toInt_le n⟩

/-- A character is written with a backslash, or as it is. -/
theorem escape_cases (c : Char) :
    (∃ e, escape c = ['\\', e] ∧ escaped? e = some c) ∨
      escape c = [c] ∧ c ≠ '\n' ∧ c ≠ '\\' ∧ c ≠ '"' ∧ c ≠ '\'' := by
  by_cases h1 : c = '\n'
  · subst h1
    exact .inl ⟨'n', rfl, rfl⟩
  by_cases h2 : c = '\t'
  · subst h2
    exact .inl ⟨'t', rfl, rfl⟩
  by_cases h3 : c = '\r'
  · subst h3
    exact .inl ⟨'r', rfl, rfl⟩
  by_cases h4 : c = '\x00'
  · subst h4
    exact .inl ⟨'0', rfl, rfl⟩
  by_cases h5 : c = '\\'
  · subst h5
    exact .inl ⟨'\\', rfl, rfl⟩
  by_cases h6 : c = '"'
  · subst h6
    exact .inl ⟨'"', rfl, rfl⟩
  by_cases h7 : c = '\''
  · subst h7
    exact .inl ⟨'\'', rfl, rfl⟩
  refine .inr ⟨?_, h1, h5, h6, h7⟩
  rw [escape, if_neg h1, if_neg h2, if_neg h3, if_neg h4, if_neg h5, if_neg h6, if_neg h7]

theorem stringBody_escape (n : Nat) (read : List Char) (c : Char) (cs : List Char) :
    stringBody n read (escape c ++ cs) = stringBody (n + (escape c).length) (c :: read) cs := by
  rcases escape_cases c with ⟨e, hesc, he⟩ | ⟨hesc, hline, hback, hquote, -⟩
  · rw [hesc, cons_append, singleton_append, stringBody]
    simp only [he]
    rfl
  · rw [hesc, singleton_append, stringBody]
    · rfl
    · exact hquote
    · exact hline
    · exact fun h _ => hback h
    · exact fun _ _ h _ => hback h

theorem stringBody_flatMap (n : Nat) (read cs tail : List Char) :
    stringBody n read (cs.flatMap escape ++ '"' :: tail) =
      .ok (some (.string (String.ofList (read.reverse ++ cs))), n + (cs.flatMap escape).length + 1) := by
  induction cs generalizing n read with
  | nil => rw [append_nil]; rfl
  | cons c cs ih =>
    rw [flatMap_cons, append_assoc, stringBody_escape, ih, reverse_cons, append_assoc,
      length_append, Nat.add_assoc n]
    rfl

theorem charBody_escape (c : Char) (tail : List Char) :
    charBody (escape c ++ '\'' :: tail) = .ok (some (.char c), (escape c).length + 1) := by
  rcases escape_cases c with ⟨e, hesc, he⟩ | ⟨hesc, hline, hback, -, hquote⟩
  · have hread : literalChar '\'' ('\\' :: e :: '\'' :: tail) = .ok (c, 2) := by
      rw [literalChar]
      simp only [he]
    rw [hesc, cons_append, singleton_append, charBody, hread]
    · rfl
    · exact fun _ h => absurd (cons.inj h).1 (by decide)
  · have hread : literalChar '\'' (c :: '\'' :: tail) = .ok (c, 1) := by
      rw [literalChar]
      · exact hline
      · exact fun h _ => hback h
      · exact fun _ _ h _ => hback h
    rw [hesc, singleton_append, charBody, hread]
    · rfl
    · exact fun _ h => hquote (cons.inj h).1

end Scan

/-!
## The words of programs
-/

namespace Word

open Scan

variable {kind : TokenKind}

theorem scans_of_word {x : Name} (c : Char) (cs : List Char) (hx : x.toList = c :: cs)
    (hc : (Text.isAlphabetic c || c == '_') = true) (hcs : cs.all inName = true)
    (hkind : (TokenKind.ofKeyword? x).getD
      (if Text.isUppercase c then .constructor else .identifier) = kind) : Scans ⟨kind, x⟩ := by
  refine ⟨c, cs, hx, ?_, fun tail htail => ?_⟩
  · rintro rfl
    exact absurd hc (by decide)
  · have hall : String.ofList (c :: cs) = x := by rw [← hx, String.ofList_toList]
    rw [lexeme_eq_word hc]
    simp only [word, takeWhile_spaced (all_eq_true.1 hcs) (by decide) htail, hall, hkind]

/-- **Names.** -/
theorem scans_name {x : Name} (h : nameKind? x = some kind) : Scans ⟨kind, x⟩ := by
  unfold nameKind? at h
  split at h
  · cases h
  rename_i c cs hx
  split at h
  · rename_i hname
    simp only [Bool.and_eq_true, Option.isNone_iff_eq_none] at hname
    obtain ⟨⟨hc, hcs⟩, hkeyword⟩ := hname
    refine scans_of_word c cs hx hc hcs ?_
    rw [hkeyword]
    exact Option.some.inj h
  · cases h

theorem scans_of_single {c : Char} {text : String} (htext : text.toList = [c]) (hc : c ≠ '\n')
    (h : ∀ cs, lexeme c cs = .ok (some kind, 0)) : Scans ⟨kind, text⟩ :=
  ⟨c, [], htext, hc, fun tail _ => h tail⟩

/-- The kinds that are always spelled in the same way. -/
def signs : List TokenKind :=
  [.kwData, .kwDef, .kwLet, .kwLetRec, .kwIn, .kwCase, .kwOf, .backslash, .arrow, .equal, .semicolon, .bar,
    .underscore, .leftParen, .rightParen, .leftBrace, .rightBrace]

/-- **Keywords and signs.** -/
theorem scans_sign (h : kind ∈ signs) : (sign kind).Scans := by
  simp only [signs, mem_cons, not_mem_nil, or_false] at h
  rcases h with rfl | rfl | rfl | rfl | rfl | rfl | rfl | rfl | rfl | rfl | rfl | rfl | rfl | rfl | rfl |
    rfl | rfl
  · exact scans_of_word 'd' ['a', 't', 'a'] (by decide) (by decide) (by decide) rfl
  · exact scans_of_word 'd' ['e', 'f'] (by decide) (by decide) (by decide) rfl
  · exact scans_of_word 'l' ['e', 't'] (by decide) (by decide) (by decide) rfl
  · exact scans_of_word 'l' ['e', 't', 'r', 'e', 'c'] (by decide) (by decide) (by decide) rfl
  · exact scans_of_word 'i' ['n'] (by decide) (by decide) (by decide) rfl
  · exact scans_of_word 'c' ['a', 's', 'e'] (by decide) (by decide) (by decide) rfl
  · exact scans_of_word 'o' ['f'] (by decide) (by decide) (by decide) rfl
  · exact scans_of_single (c := '\\') (by decide) (by decide) fun _ => rfl
  · exact ⟨'-', ['>'], by decide, by decide, fun _ _ => rfl⟩
  · exact scans_of_single (c := '=') (by decide) (by decide) fun _ => rfl
  · exact scans_of_single (c := ';') (by decide) (by decide) fun _ => rfl
  · exact scans_of_single (c := '|') (by decide) (by decide) fun _ => rfl
  · exact scans_of_word '_' [] (by decide) (by decide) (by decide) rfl
  · exact scans_of_single (c := '(') (by decide) (by decide) fun _ => rfl
  · exact scans_of_single (c := ')') (by decide) (by decide) fun _ => rfl
  · exact scans_of_single (c := '\x7b') (by decide) (by decide) fun _ => rfl
  · exact scans_of_single (c := '\x7d') (by decide) (by decide) fun _ => rfl

/-- **Names after `#`.** -/
theorem scans_primitive {name : String} (hne : name ≠ "") (hname : ∀ c ∈ name.toList, inPrimitive c = true) :
    (primitive name).Scans := by
  refine ⟨'#', name.toList, by simp [primitive], by decide, fun tail htail => ?_⟩
  have hcons : name.toList.isEmpty = false := by
    rw [isEmpty_eq_false_iff]
    exact fun h => hne (String.toList_eq_nil_iff.1 h)
  rw [lexeme_hash]
  simp only [Scan.primitive, takeWhile_spaced hname (by decide) htail, hcons, Bool.false_eq_true, if_false,
    String.ofList_toList]
  rfl

/-- **Character literals.** -/
theorem scans_char (c : Char) : (char c).Scans := by
  refine ⟨'\'', escape c ++ ['\''], String.toList_ofList, by decide, fun tail _ => ?_⟩
  rw [lexeme_quote, append_assoc, singleton_append, charBody_escape, length_append]
  rfl

/-- **String literals.** -/
theorem scans_string (s : String) : (string s).Scans := by
  refine ⟨'"', s.toList.flatMap escape ++ ['"'], String.toList_ofList, by decide, fun tail _ => ?_⟩
  rw [lexeme_doubleQuote, append_assoc, singleton_append, stringBody_flatMap, length_append,
    Nat.zero_add, reverse_nil, nil_append, String.ofList_toList]
  rfl

/-- **Integer literals.** -/
theorem scans_int (n : Int64) : (int n).Scans := by
  have hdigits : ∀ k : Nat, ∀ c ∈ Nat.toDigits 10 k, c.isDigit = true :=
    fun k c hc => Nat.isDigit_of_mem_toDigits (by decide) (by decide) hc
  have hvalue : ∀ k : Nat, digitsValue (Nat.toDigits 10 k) = k :=
    fun k => Nat.ofDigitChars_toDigits (by decide) (by decide)
  have htext : (int n).text.toList = if 0 ≤ n.toInt then Nat.toDigits 10 n.toInt.toNat
      else '-' :: Nat.toDigits 10 (-n.toInt).toNat := by
    rw [int, renderInt, Int.toString_eq_repr, Int.repr_eq_if]
    split
    · exact Nat.toList_repr
    · rw [String.toList_append, Nat.toList_repr]
      rfl
  by_cases hsign : 0 ≤ n.toInt
  · rw [if_pos hsign] at htext
    obtain ⟨c, cs, hcs⟩ := exists_cons_of_ne_nil (Nat.toDigits_ne_nil (b := 10) (n := n.toInt.toNat))
    obtain ⟨hc, hrest⟩ := forall_mem_cons.1 (hcs ▸ hdigits n.toInt.toNat)
    have hplus : (c == '-') = false := by
      rw [beq_eq_false_iff_ne]
      rintro rfl
      exact absurd hc (by decide)
    refine ⟨c, cs, htext.trans hcs, ?_, fun tail htail => ?_⟩
    · rintro rfl
      exact absurd hc (by decide)
    · rw [lexeme_eq_number hc]
      refine number_spaced c hrest htail (intLiteral?_toInt n ?_)
      rw [hplus, if_neg Bool.false_ne_true, if_neg Bool.false_ne_true, ← hcs, hvalue]
      omega
  · rw [if_neg hsign] at htext
    obtain ⟨c, cs, hcs⟩ := exists_cons_of_ne_nil (Nat.toDigits_ne_nil (b := 10) (n := (-n.toInt).toNat))
    have hc := (forall_mem_cons.1 (hcs ▸ hdigits (-n.toInt).toNat)).1
    refine ⟨'-', _, htext, by decide, fun tail htail => ?_⟩
    have hminus : lexeme '-' (Nat.toDigits 10 (-n.toInt).toNat ++ tail) =
        number '-' (Nat.toDigits 10 (-n.toInt).toNat ++ tail) := by
      rw [lexeme_minus, hcs, cons_append, minus, if_pos hc]
      · rintro rfl
        exact absurd hc (by decide)
      · rintro rfl
        exact absurd hc (by decide)
    rw [hminus]
    refine number_spaced '-' (hdigits _) htail (intLiteral?_toInt n ?_)
    rw [beq_self_eq_true, if_pos rfl, if_pos rfl, hvalue]
    omega

end Word

/-!
## Texts
-/

namespace Scan

open Word

variable {cs tail : List Char} {w : Word} {ws : List Word}

theorem tokensFrom_blank (line column : Nat) :
    tokensFrom line column (' ' :: cs) = tokensFrom line (column + 1) cs := by
  rw [tokensFrom]
  rfl

theorem tokensFrom_word (line column : Nat) (hw : w.Scans) (htail : Spaced tail) :
    ∃ t column', t.word = w ∧
      tokensFrom line column (w.text.toList ++ tail) = (t :: ·) <$> tokensFrom line column' tail := by
  obtain ⟨c, cs, htext, hline, hscan⟩ := hw
  refine ⟨⟨w.kind, ⟨line, column + 1, column + 1 + cs.length⟩, w.text⟩, column + 1 + cs.length, rfl, ?_⟩
  have hlexeme : String.ofList (c :: (cs ++ tail).take cs.length) = w.text := by
    rw [take_left, ← htext, String.ofList_toList]
  rw [htext, cons_append, tokensFrom, hscan tail htail]
  simp only [if_neg hline, drop_left, hlexeme]

/-- Words joined by blanks are scanned back one by one. -/
theorem tokensFrom_words (line column : Nat) (hws : ∀ w ∈ ws, w.Scans) :
    ∃ ts last, ts.map Token.word = ws ∧ last.kind = .endOfInput ∧
      tokensFrom line column ([' '].intercalate (ws.map fun w => w.text.toList)) = .ok (ts ++ [last]) := by
  induction ws generalizing column with
  | nil =>
    refine ⟨[], ⟨.endOfInput, ⟨line, column + 1, column⟩, "EOF"⟩, rfl, rfl, ?_⟩
    show tokensFrom line column [] = _
    rw [tokensFrom]
    rfl
  | cons w ws ih =>
    obtain ⟨hw, hws⟩ := forall_mem_cons.1 hws
    cases ws with
    | nil =>
      obtain ⟨t, column', ht, heq⟩ := tokensFrom_word line column hw (.inl rfl)
      obtain ⟨ts, last, hts, hlast, hrest⟩ := ih column' hws
      refine ⟨t :: ts, last, ?_, hlast, ?_⟩
      · rw [map_cons, ht, hts]
      · rw [append_nil] at heq
        rw [map_cons, map_nil, intercalate_singleton, heq]
        rw [map_nil, intercalate_nil] at hrest
        rw [hrest]
        rfl
    | cons w' ws =>
      obtain ⟨t, column', ht, heq⟩ := tokensFrom_word line column hw
        (.inr ⟨[' '].intercalate ((w' :: ws).map fun w => w.text.toList), rfl⟩)
      obtain ⟨ts, last, hts, hlast, hrest⟩ := ih (column' + 1) hws
      refine ⟨t :: ts, last, ?_, hlast, ?_⟩
      · rw [map_cons, ht, hts]
      · rw [map_cons, map_cons, intercalate_cons_cons, append_assoc]
        refine heq.trans ?_
        rw [tokensFrom_blank, hrest]
        rfl

end Scan

/-- A text made of words, with blanks between them. -/
def sentence (ws : List Word) : String := " ".intercalate (ws.map Word.text)

/-- **A text is cut into the words it was made of.** -/
theorem tokenize_sentence {ws : List Word} (hws : ∀ w ∈ ws, w.Scans) :
    ∃ ts last, ts.map Token.word = ws ∧ last.kind = .endOfInput ∧
      tokenize (sentence ws) = .ok (ts ++ [last]) := by
  have htext : (sentence ws).toList = [' '].intercalate (ws.map fun w => w.text.toList) := by
    rw [sentence, String.toList_intercalate, map_map]
    rfl
  rw [tokenize, htext]
  exact Scan.tokensFrom_words 1 0 hws

end GraphReduction
