import GraphReduction.Proofs.Fallible
import GraphReduction.Syntax.Scan
import Mathlib

/-!
# The pieces of a source text

A text is cut into blanks, comments and tokens, of which only the tokens are kept. Lines and columns
are counted on the way, and tell where in the text a token stands.
-/

namespace GraphReduction

open List

/-- A piece of a text. The body of a comment is what stands after `--`. -/
inductive Piece where
  | blank (c : Char)
  | comment (body : List Char)
  | token (t : Token)

def Piece.text : Piece → List Char
  | blank c => [c]
  | comment body => '-' :: '-' :: body
  | token t => t.lexeme.toList

def Piece.token? : Piece → Option Token
  | token t => some t
  | _ => none

/-- The place of `lexeme` after the text `before`. -/
def Position.after (before lexeme : List Char) : Position :=
  let start := 1 + (before.reverse.takeWhile (· ≠ '\n')).length
  ⟨1 + before.count '\n', start, start + lexeme.length - 1⟩

/-- What a piece is that stands between two texts. A comment goes up to the end of its line, and a token
is what the scanner sees in its lexeme there. -/
def Piece.Stands (before after : List Char) : Piece → Prop
  | blank c => c ∈ [' ', '\t', '\r', '\n']
  | comment body => '\n' ∉ body ∧ ∀ c ∈ after.head?, c = '\n'
  | token t => t.pos = .after before t.lexeme.toList ∧ ∃ c cs, t.lexeme.toList = c :: cs ∧
      '\n' ∉ c :: cs ∧ Scan.lexeme c (cs ++ after) = .ok (some t.kind, cs.length)

namespace Scan

variable {c : Char} {cs : List Char} {kind : Option TokenKind} {n k : Nat} {r : Result}

/-!
## Lexemes
-/

/-- The first `n` characters are there and on one line. -/
def InLine (cs : List Char) (n : Nat) : Prop := n ≤ cs.length ∧ '\n' ∉ cs.take n

theorem inLine_zero (cs : List Char) : InLine cs 0 := ⟨Nat.zero_le _, not_mem_nil⟩

theorem InLine.cons (h : InLine cs n) (hc : c ≠ '\n') : InLine (c :: cs) (n + 1) := by
  refine ⟨Nat.succ_le_succ h.1, fun hmem => ?_⟩
  rcases mem_cons.1 hmem with heq | hmem
  · exact hc heq.symm
  · exact h.2 hmem

theorem InLine.add (h : InLine cs k) (h' : InLine (cs.drop k) n) : InLine cs (k + n) := by
  have hle := h'.1
  rw [length_drop] at hle
  have hk := h.1
  refine ⟨by omega, ?_⟩
  rw [take_add, mem_append]
  exact not_or.2 ⟨h.2, h'.2⟩

theorem take_length_takeWhile (p : Char → Bool) (cs : List Char) :
    cs.take (cs.takeWhile p).length = cs.takeWhile p := (prefix_iff_eq_take.1 ( takeWhile_prefix p)).symm

theorem drop_length_takeWhile (p : Char → Bool) (cs : List Char) :
    cs.drop (cs.takeWhile p).length = cs.dropWhile p := by
  nth_rewrite 2 [← takeWhile_append_dropWhile (p := p) (l := cs)]
  exact drop_left

theorem inLine_takeWhile {p : Char → Bool} (hp : p '\n' = false) (cs : List Char) :
    InLine cs (cs.takeWhile p).length := by
  refine ⟨( takeWhile_prefix p).length_le, fun hmem => ?_⟩
  rw [take_length_takeWhile] at hmem
  exact Bool.false_ne_true (hp.symm.trans (mem_takeWhile_imp hmem))

/-- A token on one line that is no identifier. -/
def Cuts (cs : List Char) (r : Result) : Prop :=
  ∀ kind n, r = .ok (kind, n) → InLine cs n ∧ ∃ k, kind = some k ∧ k ≠ .identifier

theorem cuts_number (c : Char) (cs : List Char) : Cuts cs (number c cs) := by
  intro kind n h
  have hwhole : InLine cs (cs.takeWhile Char.isDigit).length := inLine_takeWhile (by decide) cs
  unfold number at h
  simp only at h
  split at h
  · rename_i rest hpoint
    split at h
    · cases h
    · cases h
      have hplaces : InLine rest (rest.takeWhile Char.isDigit).length := inLine_takeWhile (by decide) rest
      have hall := hwhole.add (hpoint ▸ hplaces.cons (by decide : '.' ≠ '\n'))
      exact ⟨by rwa [Nat.add_right_comm, Nat.add_assoc], _, rfl, nofun⟩
  · split at h
    · cases h
      exact ⟨hwhole, _, rfl, nofun⟩
    · cases h

theorem cuts_primitive (cs : List Char) : Cuts cs (primitive cs) := by
  intro kind n h
  unfold primitive at h
  simp only at h
  split at h
  · cases h
  · cases h
    exact ⟨inLine_takeWhile (by decide) cs, _, rfl, nofun⟩

theorem escaped?_lineFeed : escaped? '\n' = none := by decide

theorem stringBody_inLine {read : List Char} (h : stringBody k read cs = .ok (kind, n)) :
    ∃ m, n = k + m ∧ InLine cs m ∧ ∃ k, kind = some k ∧ k ≠ .identifier := by
  fun_induction stringBody k read cs with
  | case1 | case3 | case4 | case6 => cases h
  | case2 =>
    cases h
    exact ⟨1, rfl, (inLine_zero _).cons (by decide), _, rfl, nofun⟩
  | case5 k read e cs c he ih =>
    obtain ⟨m, rfl, hm, hkind⟩ := ih h
    have hne : e ≠ '\n' := by
      rintro rfl
      rw [escaped?_lineFeed] at he
      cases he
    exact ⟨m + 2, by omega, (hm.cons hne).cons (by decide), hkind⟩
  | case7 k read c cs _ hne _ _ ih =>
    obtain ⟨m, rfl, hm, hkind⟩ := ih h
    exact ⟨m + 1, by omega, hm.cons (fun heq => hne heq), hkind⟩

theorem cuts_stringBody (cs : List Char) : Cuts cs (stringBody 0 [] cs) := by
  intro kind n h
  obtain ⟨m, rfl, hm, hkind⟩ := stringBody_inLine h
  rw [Nat.zero_add]
  exact ⟨hm, hkind⟩

theorem literalChar_inLine {quote : Char} (h : literalChar quote cs = .ok (c, n)) : InLine cs n := by
  unfold literalChar at h
  split at h
  · cases h
  · cases h
  · cases h
  · split at h
    · rename_i e _ _ _ he
      cases h
      have hne : e ≠ '\n' := by
        rintro rfl
        rw [escaped?_lineFeed] at he
        cases he
      exact ((inLine_zero _).cons hne).cons (by decide)
    · cases h
  · rename_i hne _ _
    cases h
    exact (inLine_zero _).cons fun heq => hne heq

theorem cuts_charBody (cs : List Char) : Cuts cs (charBody cs) := by
  intro kind n h
  unfold charBody at h
  split at h
  · cases h
  · obtain ⟨⟨c, k⟩, hchar, h⟩ := exists_ok_of_bind h
    simp only at h
    split at h
    · rename_i hquote
      cases h
      exact ⟨(literalChar_inLine hchar).add (hquote ▸ (inLine_zero _).cons (by decide)), _, rfl, nofun⟩
    · cases h
    · cases h

/-- **What a lexeme is**: on one line, and if it is no token, a blank or a comment. -/
structure IsLexeme (c : Char) (cs : List Char) (kind : Option TokenKind) (n : Nat) : Prop where
  inLine : InLine cs n
  skipped : kind = none → (n = 0 ∧ c ∈ [' ', '\t', '\r', '\n']) ∨
    (c = '-' ∧ (∃ body, cs.take n = '-' :: body) ∧ ∀ x ∈ (cs.drop n).head?, x = '\n')
  token : kind ≠ none → c ≠ '\n'
  identifier : kind = some .identifier → c ≠ '$' ∧ n = (cs.takeWhile inName).length

theorem Cuts.isLexeme (h : Cuts cs r) (hc : c ≠ '\n') (hr : r = .ok (kind, n)) : IsLexeme c cs kind n := by
  obtain ⟨hline, k, rfl, hk⟩ := h kind n hr
  exact ⟨hline, nofun, fun _ => hc, fun h => absurd (Option.some.inj h) hk⟩

theorem cuts_sign {kind : TokenKind} (h : kind ≠ .identifier) (cs : List Char) :
    Cuts cs (.ok (some kind, 0)) := by
  rintro _ _ ⟨⟩
  exact ⟨inLine_zero cs, kind, rfl, h⟩

theorem minus_isLexeme (h : minus cs = .ok (kind, n)) : IsLexeme '-' cs kind n := by
  unfold minus at h
  split at h
  · rename_i rest
    cases h
    refine ⟨inLine_takeWhile (by decide) _, fun _ => .inr ⟨rfl, ?_, ?_⟩, fun h => absurd rfl h, nofun⟩
    · rw [take_length_takeWhile]
      exact ⟨_, takeWhile_cons_of_pos (by decide)⟩
    · intro x hx
      have hend := head?_dropWhile_not (· != '\n') ('-' :: rest)
      rw [drop_length_takeWhile, Option.mem_def] at hx
      rw [hx] at hend
      simpa using hend
  · cases h
    exact ⟨(inLine_zero _).cons (by decide), nofun, fun _ => by decide, nofun⟩
  · split at h
    · exact (cuts_number '-' _).isLexeme (by decide) h
    · cases h
  · cases h

theorem IsLexeme.of_ite {p : Prop} [Decidable p] {r' : Result} (h : (if p then r else r') = .ok (kind, n))
    (hr : p → r = .ok (kind, n) → IsLexeme c cs kind n)
    (hr' : ¬ p → r' = .ok (kind, n) → IsLexeme c cs kind n) : IsLexeme c cs kind n := by
  by_cases hp : p
  · exact hr hp (by rwa [if_pos hp] at h)
  · exact hr' hp (by rwa [if_neg hp] at h)

/-- Whatever is scanned is a lexeme: one case for each first character. -/
theorem lexeme_isLexeme (h : lexeme c cs = .ok (kind, n)) : IsLexeme c cs kind n := by
  unfold lexeme at h
  iterate 8 refine .of_ite h (fun hc h =>
    (cuts_sign (by nofun) cs).isLexeme (by rw [hc]; decide) h) fun _ h => ?_
  refine .of_ite h (fun hc h => by rw [hc]; exact minus_isLexeme h) fun _ h => ?_
  refine .of_ite h (fun hc h =>
    (cuts_primitive cs).isLexeme (by rw [hc]; decide) h) fun _ h => ?_
  refine .of_ite h (fun hblank h => ?_) fun hblank h => ?_
  · cases h
    exact ⟨inLine_zero cs, fun _ => .inl ⟨rfl, by simpa [or_assoc] using hblank⟩, fun h => absurd rfl h, nofun⟩
  have hne : c ≠ '\n' := by
    rintro rfl
    simp at hblank
  refine .of_ite h (fun _ => (cuts_stringBody cs).isLexeme hne) fun _ h => ?_
  refine .of_ite h (fun _ => (cuts_charBody cs).isLexeme hne) fun _ h => ?_
  refine .of_ite h (fun _ => (cuts_number c cs).isLexeme hne) fun _ h => ?_
  refine .of_ite h (fun hfirst h => ?_) fun _ h => by cases h
  cases h
  refine ⟨inLine_takeWhile (by decide) cs, nofun, fun _ => hne, fun _ => ⟨?_, rfl⟩⟩
  rintro rfl
  exact absurd hfirst (by decide)

end Scan

/-!
## Texts
-/

variable {before cs : List Char} {line column : Nat} {ts : List Token}

/-- The lines and columns of the text `before`. -/
structure Counted (before : List Char) (line column : Nat) : Prop where
  line : line = 1 + before.count '\n'
  column : column = (before.reverse.takeWhile (· ≠ '\n')).length

theorem Counted.append {piece : List Char} (h : Counted before line column) (hp : '\n' ∉ piece) :
    Counted (before ++ piece) line (column + piece.length) := by
  refine ⟨?_, ?_⟩
  · rw [count_append, count_eq_zero.2 hp, Nat.add_zero]
    exact h.line
  · have hall : ∀ c ∈ piece.reverse, decide (c ≠ '\n') = true := by
      intro c hc
      refine decide_eq_true fun heq => hp ?_
      rw [← heq]
      exact mem_reverse.1 hc
    rw [reverse_append, takeWhile_append_of_pos hall, length_append, length_reverse, h.column, Nat.add_comm]

theorem Counted.lineFeed (h : Counted before line column) : Counted (before ++ ['\n']) (line + 1) 0 := by
  refine ⟨?_, ?_⟩
  · rw [count_append, h.line]
    rfl
  · rw [reverse_append]
    rfl

/-- The text `cs` after `before` is made of pieces, of which `ts` are the tokens. -/
def Covers (before cs : List Char) (ts : List Token) : Prop :=
  ∃ pieces : List Piece, cs = pieces.flatMap Piece.text ∧
    ts = pieces.filterMap Piece.token? ++ [⟨.endOfInput, .after (before ++ cs) [], "EOF"⟩] ∧
    ∀ front p back, pieces = front ++ p :: back →
      p.Stands (before ++ front.flatMap Piece.text) (back.flatMap Piece.text)

theorem Covers.cons {p : Piece} (hp : p.Stands before cs) (h : Covers (before ++ p.text) cs ts) :
    Covers before (p.text ++ cs) (p.token?.toList ++ ts) := by
  obtain ⟨pieces, rfl, rfl, hpieces⟩ := h
  refine ⟨p :: pieces, rfl, ?_, fun front q back heq => ?_⟩
  · rw [append_assoc]
    cases p <;> rfl
  · cases front with
    | nil =>
      obtain ⟨rfl, rfl⟩ := cons_eq_cons.1 heq
      rwa [flatMap_nil, append_nil]
    | cons p' front =>
      obtain ⟨rfl, rfl⟩ := cons_eq_cons.1 heq
      rw [flatMap_cons, ← append_assoc]
      exact hpieces front q back rfl

theorem Covers.lexeme {p : Piece} {c : Char} {n : Nat} (hp : p.Stands before (cs.drop n))
    (htext : p.text = c :: cs.take n) (h : Covers (before ++ c :: cs.take n) (cs.drop n) ts) :
    Covers before (c :: cs) (p.token?.toList ++ ts) := by
  rw [← htext] at h
  have hcs : c :: cs = p.text ++ cs.drop n := by rw [htext, cons_append, take_append_drop]
  rw [hcs]
  exact h.cons hp

/-- **The pieces of the rest of a text.** -/
theorem covers_of_tokensFrom (hat : Counted before line column)
    (h : Scan.tokensFrom line column cs = .ok ts) : Covers before cs ts := by
  -- what is counted after a lexeme that is no line feed
  have hnext : ∀ {before line column c cs kind n}, Counted before line column → c ≠ '\n' →
      Scan.lexeme c cs = .ok (kind, n) → Counted (before ++ c :: cs.take n) line (column + 1 + n) := by
    intro before line column c cs kind n hat hc hlexeme
    have hline := (Scan.lexeme_isLexeme hlexeme).inLine
    have hnext := hat.append (mem_cons.not.2 (not_or.2 ⟨hc.symm, hline.2⟩))
    rwa [length_cons, length_take, Nat.min_eq_left hline.1, Nat.add_comm n, ← Nat.add_assoc] at hnext
  fun_induction Scan.tokensFrom line column cs generalizing before ts with
  | case1 line column =>
    cases h
    refine ⟨[], rfl, ?_, fun front p back heq => absurd heq (by simp)⟩
    rw [hat.line, hat.column, append_nil, Nat.add_comm _ 1]
    simp [Position.after]
  | case2 => cases h
  | case3 line column cs kind n rest hlexeme =>
    rename_i ih
    cases (show Except.ok (none, 0) = _ from hlexeme)
    exact .lexeme (p := .blank '\n') (by simp [Piece.Stands]) rfl (ih hat.lineFeed h)
  | case4 line column c cs n rest hc hlexeme =>
    rename_i ih
    have hrest := ih (hnext hat hc hlexeme) h
    rcases (Scan.lexeme_isLexeme hlexeme).skipped rfl with ⟨rfl, hblank⟩ | ⟨rfl, ⟨body, hbody⟩, hend⟩
    · exact .lexeme (p := .blank c) hblank rfl hrest
    · have hline := (Scan.lexeme_isLexeme hlexeme).inLine.2
      rw [hbody] at hline
      exact .lexeme (p := .comment body) ⟨fun hmem => hline (mem_cons_of_mem _ hmem), hend⟩
        (congrArg ('-' :: ·) hbody.symm) hrest
  | case5 line column c cs n rest hc kind token =>
    rename_i hlexeme ih
    cases htail : Scan.tokensFrom line (column + 1 + n) rest with
    | error e =>
      rw [htail] at h
      cases h
    | ok us =>
      rw [htail] at h
      cases h
      have hline := (Scan.lexeme_isLexeme hlexeme).inLine
      have hlen : (cs.take n).length = n := by rw [length_take, Nat.min_eq_left hline.1]
      have htext : token.lexeme.toList = c :: cs.take n := String.toList_ofList
      refine .lexeme (p := .token token) ⟨?_, c, cs.take n, htext, ?_, ?_⟩ htext (ih (hnext hat hc hlexeme) htail)
      · rw [htext]
        simp only [token, Position.after, ← hat.line, ← hat.column, length_cons, hlen]
        congr 1 <;> omega
      · exact mem_cons.not.2 (not_or.2 ⟨Ne.symm hc, hline.2⟩)
      · rw [take_append_drop, hlen, hlexeme]

theorem covers_of_tokenize {source : String} (h : tokenize source = .ok ts) : Covers [] source.toList ts :=
  covers_of_tokensFrom ⟨rfl, rfl⟩ h

/-- The numbers of a position are no larger than the text up to there is long. -/
theorem Position.after_le (before lexeme : List Char) :
    (Position.after before lexeme).line ≤ 1 + before.length ∧
      (Position.after before lexeme).startColumn ≤ 1 + before.length ∧
      (Position.after before lexeme).endColumn ≤ before.length + lexeme.length := by
  have hline := before.count_le_length (a := '\n')
  have hcolumn := (before.reverse.takeWhile_prefix (· ≠ '\n')).length_le
  rw [length_reverse] at hcolumn
  simp only [Position.after]
  omega

/-- **Positions need 32 bits at most** in a source of fewer than `2 ^ 32 - 1` characters. -/
theorem position_le_length {source : String} (h : tokenize source = .ok ts) : ∀ t ∈ ts,
    t.pos.line ≤ 1 + source.length ∧ t.pos.startColumn ≤ 1 + source.length ∧
      t.pos.endColumn ≤ source.length := by
  obtain ⟨pieces, hsource, rfl, hpieces⟩ := covers_of_tokenize h
  intro t ht
  -- it stands after some of the text, and ends where the rest starts
  obtain ⟨before, lexeme, hle, hpos⟩ : ∃ before lexeme : List Char,
      before.length + lexeme.length ≤ source.length ∧ t.pos = .after before lexeme := by
    rw [← String.length_toList]
    rcases mem_append.1 ht with ht | ht
    · obtain ⟨p, hp, hpt⟩ := mem_filterMap.1 ht
      obtain ⟨front, back, rfl⟩ := append_of_mem hp
      cases p with
      | blank _ | comment _ => cases hpt
      | token t' =>
        cases hpt
        refine ⟨_, _, ?_, (hpieces front _ back rfl).1⟩
        rw [hsource]
        simp only [flatMap_append, flatMap_cons, Piece.text, nil_append, length_append]
        omega
    · rw [mem_singleton.1 ht]
      exact ⟨_, [], Nat.le_refl _, rfl⟩
  obtain ⟨hline, hstart, hend⟩ := Position.after_le before lexeme
  rw [hpos]
  omega

/-- **Tokens account for the whole source.** The text is made of blanks, comments up to the ends of their
lines, and the lexemes of the tokens, in this order and with nothing between them. Each token has the
number of its line, the column it starts in and the one it ends in, counted in characters from one. -/
theorem tokens_cover_source (source : String) (ts : List Token) (h : tokenize source = .ok ts) :
    ∃ pieces : List Piece, source.toList = pieces.flatMap Piece.text ∧
      ts = pieces.filterMap Piece.token? ++ [⟨.endOfInput, .after source.toList [], "EOF"⟩] ∧
      ∀ before p after, pieces = before ++ p :: after →
        p.Stands (before.flatMap Piece.text) (after.flatMap Piece.text) := by
  obtain ⟨pieces, hsource, hts, hpieces⟩ := covers_of_tokenize h
  exact ⟨pieces, hsource, hts, hpieces⟩

/-- A comment and a literal with characters of two bytes, before and after the end of a line. -/
def accentedSource : String := "é -- ü\n\t'é'x"

def accentedTokens : List Token :=
  [⟨.identifier, ⟨1, 1, 1⟩, "é"⟩, ⟨.char 'é', ⟨2, 2, 4⟩, "'é'"⟩, ⟨.identifier, ⟨2, 5, 5⟩, "x"⟩,
    ⟨.endOfInput, ⟨2, 6, 5⟩, "EOF"⟩]

theorem tokens_cover_accentedSource : tokenize accentedSource = .ok accentedTokens ∧
    ∃ pieces : List Piece, accentedSource.toList = pieces.flatMap Piece.text ∧
      pieces.filterMap Piece.token? = accentedTokens.dropLast := by
  have htokens : tokenize accentedSource = .ok accentedTokens :=
    eq_ok_of_toOption (by decide +kernel)
  obtain ⟨pieces, hsource, hts, -⟩ := tokens_cover_source accentedSource accentedTokens htokens
  exact ⟨htokens, pieces, hsource, by rw [hts, dropLast_concat]⟩

end GraphReduction
