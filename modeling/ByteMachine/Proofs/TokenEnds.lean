import ByteMachine.Proofs.Lexemes
import ByteMachine.Proofs.Lexing
import ByteMachine.Proofs.Numerals

namespace ByteMachine.Assembly

/-- The reading of a text with more text behind it. -/
def Reading.followedBy (r : Reading) (cs : List Char) : Reading :=
  { r with rest := r.rest ++ cs }

theorem isWordChar_of_isHexDigit (c : Char) (h : isHexDigit c = true) : isWordChar c = true := by
  cases hword : c.isAlphanum with
  | true => simp [isWordChar, hword]
  | false =>
    have hnone := Text.digitValue?_of_not_isAlphanum hword 16
    simp [isHexDigit, hnone] at h

theorem endsWord_nil : EndsWord [] := by
  intro c hc
  cases hc

theorem endsWord_cons {c : Char} (h : isWordChar c = false) (cs : List Char) :
    EndsWord (c :: cs) := by
  intro d hd
  obtain rfl := Option.some.inj hd
  exact h

theorem isWordChar_of_isSpace {c : Char} (h : isSpace c = true) : isWordChar c = false := by
  simp only [isSpace, Bool.or_eq_true, beq_iff_eq] at h
  rcases h with (rfl | rfl) | rfl
  · rfl
  · rfl
  · rfl

section

variable {rest : List Char} (h : EndsWord rest)

include h

namespace Token

theorem readHex?_append (cs : List Char) :
    readHex? (cs ++ rest) = (readHex? cs).map (·.followedBy rest) := by
  match cs with
  | [] =>
    apply readHex?_eq_none
    rintro x cs' rfl
    exact absurd (h '0' rfl) (by decide)
  | [c] =>
    have hnone : readHex? [c] = none := by
      apply readHex?_eq_none
      intro x cs' hcs
      cases hcs
    rw [hnone]
    apply readHex?_eq_none
    intro x cs' hcs
    obtain ⟨-, rfl⟩ := List.cons.inj hcs
    have hx := h x rfl
    constructor
    · rintro rfl
      exact absurd hx (by decide)
    · rintro rfl
      exact absurd hx (by decide)
  | c :: x :: cs =>
    by_cases hc : c = '0'
    · subst hc
      obtain ⟨htake, hdrop⟩ := takeWhile_append_of_stop (h.stop isWordChar_of_isHexDigit) cs
      simp only [List.cons_append, readHex?, htake, hdrop]
      split
      · rfl
      · rfl
    · simp [readHex?, hc]

theorem readDecimal?_append (cs : List Char) :
    readDecimal? (cs ++ rest) = (readDecimal? cs).map (·.followedBy rest) := by
  obtain ⟨htake, hdrop⟩ := takeWhile_append_of_stop (h.stop isWordChar_of_isDigit) cs
  simp only [readDecimal?, htake, hdrop]
  split
  · rfl
  · rfl

theorem readImmediate_append (cs : List Char) :
    readImmediate (cs ++ rest) = (readImmediate cs).followedBy rest := by
  rw [readImmediate, readImmediate, readHex?_append h, readDecimal?_append h]
  cases readHex? cs with
  | some r => rfl
  | none =>
    cases readDecimal? cs with
    | some r => rfl
    | none => rfl

/-- A token is read as if nothing stood behind the place where words end. -/
theorem read_append (c : Char) (cs : List Char) :
    read c (cs ++ rest) = (read c cs).followedBy rest := by
  obtain ⟨htake, hdrop⟩ := takeWhile_append_of_stop (h.stop fun _ hd => hd) cs
  unfold read
  split
  · rfl
  split
  · simp only [htake, hdrop]
    rfl
  split
  · exact readImmediate_append h cs
  · rfl

end Token

theorem lexFrom_append (offset : Nat) (cs : List Char) :
    lexFrom offset (cs ++ rest)
      = lexFrom offset cs ++ lexFrom (offset + Text.byteLength cs) rest := by
  induction offset, cs using lexFrom.induct with
  | case1 offset =>
    have hnil : lexFrom offset [] = [] := by rw [lexFrom]
    rw [List.nil_append, hnil, List.nil_append]
    rfl
  | case2 offset c cs hspace ih =>
    rw [List.cons_append, lexFrom, if_pos hspace, ih, lexFrom, if_pos hspace, Text.byteLength,
      Nat.add_assoc]
  | case3 offset c cs hspace reading slice ih =>
    have hlength : Text.byteLength (c :: cs)
        = Text.byteLength slice + Text.byteLength reading.rest := by
      rw [← Text.byteLength_append, List.cons_append, Token.tail_append_rest_read]
    rw [List.cons_append, lexFrom, if_neg hspace, Token.read_append h, lexFrom, if_neg hspace,
      List.cons_append, hlength, ← Nat.add_assoc, ← ih]
    rfl

end

def tokens (line : List Char) : List Token :=
  (lex line).map Lexeme.token

theorem map_token_lexFrom (offset : Nat) (cs : List Char) :
    (lexFrom offset cs).map Lexeme.token = tokens cs := by
  have hmoved (offset offset' : Nat) : (lexFrom offset cs).map Lexeme.token
      = (lexFrom offset' cs).map Lexeme.token := by
    induction offset, cs using lexFrom.induct generalizing offset' with
    | case1 offset => rw [lexFrom, lexFrom]
    | case2 offset c cs hspace ih =>
      rw [lexFrom, if_pos hspace, lexFrom, if_pos hspace]
      exact ih _
    | case3 offset c cs hspace reading slice ih =>
      rw [lexFrom, if_neg hspace, lexFrom, if_neg hspace, List.map_cons, List.map_cons]
      exact congrArg _ (ih _)
  exact hmoved offset 0

theorem lexes_tokens (cs : List Char) : Lexes cs (tokens cs) := fun offset =>
  map_token_lexFrom offset cs

theorem Lexes.tokens_eq {cs : List Char} {ts : List Token} (h : Lexes cs ts) : tokens cs = ts :=
  h 0

theorem tokens_append {rest : List Char} (h : EndsWord rest) (cs : List Char) :
    tokens (cs ++ rest) = tokens cs ++ tokens rest := by
  rw [tokens, lex, lexFrom_append h, List.map_append, map_token_lexFrom, map_token_lexFrom]

theorem tokens_of_space {c : Char} (h : isSpace c = true) (cs : List Char) :
    tokens (c :: cs) = tokens cs :=
  ((lexes_tokens cs).space h).tokens_eq

theorem tokens_of_comma (cs : List Char) : tokens (',' :: cs) = .comma :: tokens cs :=
  (lexes_tokens cs).comma.tokens_eq

theorem tokens_of_spaces {run : List Char} (h : ∀ c ∈ run, isSpace c = true) (cs : List Char) :
    tokens (run ++ cs) = tokens cs := by
  induction run with
  | nil => rfl
  | cons c run ih =>
    have hrest := ih fun d hd => h d (List.mem_cons_of_mem _ hd)
    rw [List.cons_append, tokens_of_space (h c List.mem_cons_self), hrest]

theorem tokens_of_word {c : Char} {tail rest : List Char} (hc : isWordStart c = true)
    (htail : ∀ d ∈ tail, isWordChar d = true) (hrest : EndsWord rest) :
    tokens (c :: tail ++ rest) = Token.ofWord (c :: tail) :: tokens rest :=
  ((lexes_tokens rest).word hc htail hrest).tokens_eq

end ByteMachine.Assembly
