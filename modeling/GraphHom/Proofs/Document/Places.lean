import GraphHom.Document.Parse
import GraphHom.Proofs.Document.Cuts
import GraphHom.Proofs.Document.Furthest

/-!
# Places in a text

A place among the tokens of a text is a place among its characters. `FallsOn text p n` says which: after `n`
characters stands the token of the place, less as many characters as the place lies inside it, or the text
ends. `Stands text p cs` says the same by what is left of the text, in the form in which a reading goes on
from token to token (`Stands.past`, `Stands.inside`). There is one such `n` (`FallsOn.eq_offsetIn`).

What comes earlier among the tokens comes earlier among the characters (`Stands.le_iff`), the line and the
column of a place are those of its characters (`Stands.position_eq`), and the tokens before a place are
those of the characters before it (`Stands.tokens_take`).
-/

namespace GraphHom

open Peg (Tight skip tight_skip tokens_skip skip_suffix skip_of_tight)

variable {c : Char} {cs ds text w : List Char} {p q : Place} {n : Nat}

/-! ## What is left at a place -/

/-- At the place `p` among the tokens of `text`, `cs` is what is left of it. Inside a word, more of the word
is left. -/
structure Stands (text : List Char) (p : Place) (cs : List Char) : Prop where
  /-- Only characters of a word may lie between the start of the token and the place. -/
  exists_word : ∃ w, fromToken p.token text = w ++ cs ∧ w.length = p.offset ∧
    (∀ c ∈ w, isWordChar c) ∧ (w ≠ [] → StartsWord cs)
  /-- What is left has the remaining tokens. -/
  length_tokens : p.token + (tokens cs).length = (tokens text).length

namespace Stands

theorem start : Stands text Place.first (skip text) where
  exists_word := ⟨[], rfl, rfl, by simp, by simp⟩
  length_tokens := by
    rw [tokens_skip]
    exact Nat.zero_add _

theorem tight (h : Stands text p cs) : Tight cs := by
  obtain ⟨w, hw, -, -, hstart⟩ := h.exists_word
  cases w with
  | nil =>
    rw [List.nil_append] at hw
    exact hw ▸ tight_fromToken
  | cons c w =>
    obtain ⟨d, ds, rfl, hword⟩ := hstart (List.cons_ne_nil c w)
    exact Peg.tight_word hword

theorem suffix (h : Stands text p cs) : cs <:+ text := by
  obtain ⟨w, hw, -⟩ := h.exists_word
  have hsuffix : cs <:+ fromToken p.token text := hw ▸ List.suffix_append w cs
  exact hsuffix.trans fromToken_suffix

/-- On to the next token. -/
theorem past (h : Stands text p cs) (hne : cs ≠ []) :
    Stands text ⟨p.token + 1, 0⟩ (skip (pastToken cs)) where
  exists_word := by
    obtain ⟨w, hw, -, hword, hstart⟩ := h.exists_word
    refine ⟨[], ?_, rfl, by simp, by simp⟩
    rw [fromToken_succ, hw, pastToken_append hword hstart, List.nil_append]
  length_tokens := by
    obtain ⟨t, -, -, htokens, -⟩ := exists_token h.tight hne
    have hlen := h.length_tokens
    rw [htokens, List.length_cons] at hlen
    rw [tokens_skip]
    simp only
    omega

/-- On to a place inside the word at the place. -/
theorem inside (h : Stands text p (w ++ cs)) (hne : w ≠ []) (hw : ∀ c ∈ w, isWordChar c)
    (hcs : StartsWord cs) : Stands text ⟨p.token, p.offset + w.length⟩ cs where
  exists_word := by
    obtain ⟨v, hv, hlen, hword, -⟩ := h.exists_word
    refine ⟨v ++ w, by rw [hv, List.append_assoc], by rw [List.length_append, hlen], ?_, fun _ => hcs⟩
    intro c hc
    exact (List.mem_append.mp hc).elim (hword c) (hw c)
  length_tokens := by
    obtain ⟨c, ds, rfl, hword⟩ := hcs
    have hlen := h.length_tokens
    rw [tokens_append hne hw, List.takeWhile_cons_of_pos hword, List.dropWhile_cons_of_pos hword] at hlen
    rw [tokens_word hword]
    exact hlen

/-- At the start of a parenthesis, no characters of a word come before the place. -/
theorem offset_eq_zero (h : Stands text p cs) (hcs : ¬StartsWord cs) : p.offset = 0 := by
  obtain ⟨w, -, hlen, -, hstart⟩ := h.exists_word
  cases w with
  | nil => exact hlen.symm
  | cons c w => exact absurd (hstart (List.cons_ne_nil c w)) hcs

theorem length_lt (h : Stands text p cs) (h' : Stands text q ds) (hlt : p.token < q.token) :
    ds.length < cs.length := by
  obtain ⟨w, hw, -, hword, hstart⟩ := h.exists_word
  obtain ⟨v, hv, -⟩ := h'.exists_word
  have hne : cs ≠ [] := by
    rintro rfl
    have hlen := h.length_tokens
    have hlen' := h'.length_tokens
    rw [tokens_nil, List.length_nil] at hlen
    omega
  have hstep : ∀ n k, (fromToken (n + k) text).length ≤ (fromToken n text).length := by
    intro n k
    induction k with
    | zero => exact Nat.le_refl _
    | succ k ih =>
      have hle : (fromToken (n + k + 1) text).length ≤ (fromToken (n + k) text).length := by
        rw [fromToken_succ]
        by_cases hnil : fromToken (n + k) text = []
        · rw [hnil]
          exact Nat.le_of_eq (congrArg List.length (skip_of_tight Peg.tight_nil))
        · exact Nat.le_trans skip_suffix.length_le (Nat.le_of_lt (pastToken_length_lt hnil))
      exact Nat.le_trans hle ih
  have hds : ds.length ≤ (fromToken q.token text).length := by
    rw [hv, List.length_append]
    omega
  have hnext : (fromToken (p.token + 1) text).length < cs.length := by
    rw [fromToken_succ, hw, pastToken_append hword hstart]
    exact Nat.lt_of_le_of_lt skip_suffix.length_le (pastToken_length_lt hne)
  obtain ⟨k, hk⟩ := Nat.exists_eq_add_of_le (Nat.succ_le_of_lt hlt)
  have hle := hstep (p.token + 1) k
  rw [← hk] at hle
  omega

/-- What comes earlier among the tokens comes earlier among the characters. -/
theorem le_iff (h : Stands text p cs) (h' : Stands text q ds) : p ≤ q ↔ ds.length ≤ cs.length := by
  have hle : p ≤ q ↔ p.token < q.token ∨ (p.token = q.token ∧ p.offset ≤ q.offset) := Iff.rfl
  rw [hle]
  rcases Nat.lt_trichotomy p.token q.token with hlt | heq | hgt
  · have hlen := h.length_lt h' hlt
    omega
  · obtain ⟨w, hw, hp, -⟩ := h.exists_word
    obtain ⟨v, hv, hq, -⟩ := h'.exists_word
    have hlen := congrArg List.length (hw.symm.trans (heq ▸ hv))
    rw [List.length_append, List.length_append] at hlen
    omega
  · have hlen := h'.length_lt h hgt
    omega

end Stands

/-! ## Places as numbers of characters -/

/-- The number of characters before a place. -/
def offsetIn (text : List Char) (p : Place) : Nat :=
  text.length - ((fromToken p.token text).drop p.offset).length

/-- Line and column of the place after `n` characters. -/
def positionAt (text : String) (n : Nat) : Position := Position.start.advance (text.toList.take n)

/-- After `n` characters of the text stands the place `p`: in its token, as many characters after its start
as `p` is inside it, or at the end of the text. -/
inductive FallsOn (text : List Char) : Place → Nat → Prop
  /-- On a token: `front` has the tokens before it, `back` those after it. -/
  | token {front back : List Char} {t : Token} {o : Nat} (htext : text = front ++ (t.chars ++ back))
      (htokens : tokens text = tokens front ++ t :: tokens back) (ho : o < t.chars.length) :
      FallsOn text ⟨(tokens front).length, o⟩ (front.length + o)
  /-- At the end. -/
  | stop : FallsOn text ⟨(tokens text).length, 0⟩ text.length

theorem offsetIn_eq (h : fromToken p.token text = w ++ cs) (hlen : w.length = p.offset) :
    offsetIn text p = text.length - cs.length := by
  rw [offsetIn, h, ← hlen, List.drop_left]

namespace Stands

theorem offsetIn_eq (h : Stands text p cs) : offsetIn text p = text.length - cs.length := by
  obtain ⟨w, hw, hlen, -⟩ := h.exists_word
  exact GraphHom.offsetIn_eq hw hlen

theorem take_append (h : Stands text p cs) : text.take (offsetIn text p) ++ cs = text := by
  obtain ⟨front, rfl⟩ := h.suffix
  rw [h.offsetIn_eq, List.length_append, Nat.add_sub_cancel, List.take_left]

theorem offsetIn_le_iff (h : Stands text p cs) (h' : Stands text q ds) :
    offsetIn text p ≤ offsetIn text q ↔ p ≤ q := by
  have hcs := h.suffix.length_le
  have hds := h'.suffix.length_le
  rw [h.le_iff h', h.offsetIn_eq, h'.offsetIn_eq]
  omega

theorem eq_of_offsetIn_eq (h : Stands text p cs) (h' : Stands text q ds)
    (heq : offsetIn text p = offsetIn text q) : p = q :=
  Place.le_antisymm ((h.offsetIn_le_iff h').mp (Nat.le_of_eq heq))
    ((h'.offsetIn_le_iff h).mp (Nat.le_of_eq heq.symm))

/-- A place falls on the token whose number it has. -/
theorem fallsOn (h : Stands text p cs) : FallsOn text p (offsetIn text p) := by
  obtain ⟨w, hw, hlen, hword, hstart⟩ := h.exists_word
  by_cases hne : cs = []
  · have hp : p = ⟨(tokens text).length, 0⟩ := by
      have hzero : p.offset = 0 := h.offset_eq_zero (hne ▸ not_startsWord_nil)
      have htoken := h.length_tokens
      rw [hne, tokens_nil, List.length_nil] at htoken
      rw [← hzero, ← htoken]
      rfl
    have hoffset := h.offsetIn_eq
    rw [hne, List.length_nil, Nat.sub_zero] at hoffset
    rw [hoffset, hp]
    exact .stop
  · have hfull : fromToken p.token text ≠ [] := by
      rw [hw]
      exact fun hnil => hne (List.append_eq_nil_iff.mp hnil).2
    obtain ⟨front, hfront, hcount, hsep⟩ := exists_front hfull
    obtain ⟨t, ht, -, htokens, -, -⟩ := exists_token tight_fromToken hfull
    have hsplit : tokens text = tokens front ++ t :: tokens (pastToken (fromToken p.token text)) := by
      rw [← htokens, ← hsep.tokens_append id, ← hfront]
    have ho : p.offset < t.chars.length := by
      have hfulllen := congrArg List.length ht
      have hpast := pastToken_length_lt hne
      rw [List.length_append, hw, pastToken_append hword hstart, List.length_append] at hfulllen
      omega
    have hoffset : offsetIn text p = front.length + p.offset := by
      have htextlen := congrArg List.length hfront
      rw [hw, List.length_append, List.length_append] at htextlen
      rw [h.offsetIn_eq]
      omega
    have hplace : p = ⟨(tokens front).length, p.offset⟩ := by rw [hcount]
    rw [hoffset, hplace]
    exact .token (hfront.trans (congrArg _ ht)) hsplit ho

end Stands

/-- Words are made of characters of a word. -/
theorem word_mem_tokens (h : .word w ∈ tokens text) : w ≠ [] ∧ ∀ c ∈ w, isWordChar c := by
  have htokenizes := tokenizes_tokens text
  generalize tokens text = ts at h htokenizes
  induction htokenizes with
  | nil => cases h
  | blank _ _ ih => exact ih h
  | comment _ _ _ ih => exact ih h
  | opening _ ih =>
    rcases List.mem_cons.mp h with h | h
    · cases h
    · exact ih h
  | closing _ ih =>
    rcases List.mem_cons.mp h with h | h
    · cases h
    · exact ih h
  | word hne hw _ _ ih =>
    rcases List.mem_cons.mp h with h | h
    · cases h
      exact ⟨hne, hw⟩
    · exact ih h

/-- Each place falls on one number of characters. -/
theorem FallsOn.eq_offsetIn (h : FallsOn text p n) : n = offsetIn text p := by
  cases h with
  | stop =>
    have hnil : fromToken (tokens text).length text = [] := by
      have htokens := tokens_fromToken (tokens text).length text
      rw [List.drop_length] at htokens
      exact Decidable.not_not.mp fun hne => tokens_ne_nil tight_fromToken hne htokens
    rw [offsetIn, hnil, List.drop_nil, List.length_nil, Nat.sub_zero]
  | @token front back t o htext htokens ho =>
    have htight : Tight (t.chars ++ back) ∧ (tokens (t.chars ++ back)).length ≤ (tokens back).length + 1 := by
      cases t with
      | opening =>
        rw [Token.chars, List.singleton_append, tokens_opening, List.length_cons]
        exact ⟨Peg.tight_opening, Nat.le_refl _⟩
      | closing =>
        rw [Token.chars, List.singleton_append, tokens_closing, List.length_cons]
        exact ⟨Peg.tight_closing, Nat.le_refl _⟩
      | word w =>
        obtain ⟨hne, hw⟩ := word_mem_tokens (htokens ▸ List.mem_append_right _ List.mem_cons_self)
        obtain ⟨c, w, rfl⟩ := List.exists_cons_of_ne_nil hne
        refine ⟨Peg.tight_word (hw c List.mem_cons_self), ?_⟩
        rw [Token.chars, tokens_append hne hw, List.length_cons]
        by_cases hstart : StartsWord back
        · obtain ⟨d, ds, rfl, hword⟩ := hstart
          rw [List.dropWhile_cons_of_pos hword, tokens_word hword, List.length_cons]
          omega
        · exact Nat.le_of_eq (by rw [dropWhile_of_not_startsWord hstart])
    have hne : t.chars ++ back ≠ [] := by
      intro hnil
      rw [(List.append_eq_nil_iff.mp hnil).1] at ho
      exact absurd ho (Nat.not_lt_zero _)
    have hcount := congrArg List.length htokens
    rw [List.length_append, List.length_cons, htext] at hcount
    have hsep : Separates front (t.chars ++ back) :=
      separates_of_length_le htight.1 hne (by omega)
    have hfrom := hsep.fromToken_eq htight.1 hne
    rw [← htext] at hfrom
    have hlen := congrArg List.length htext
    rw [List.length_append, List.length_append] at hlen
    rw [offsetIn, hfrom, List.length_drop, List.length_append]
    simp only
    omega

/-! ## Lines and columns -/

theorem Position.advance_eq_right {position : Position} (h : '\n' ∉ w) :
    position.advance w = position.right w.length := by
  induction w generalizing position with
  | nil => rfl
  | cons c w ih =>
    rw [List.mem_cons, not_or] at h
    show (position.next c).advance w = _
    rw [ih h.2, Position.next, if_neg (Ne.symm h.1), Position.right, Position.right, List.length_cons,
      Nat.add_assoc, Nat.add_comm 1]

/-- A token starts where the text does that starts with it. -/
theorem start_head_lexemes (h : Tight cs) (hne : cs ≠ []) (position : Position) :
    ∃ t rest, lexemes position cs = ⟨t, position⟩ :: rest := by
  rcases h.cases with rfl | ⟨cs', rfl⟩ | ⟨cs', rfl⟩ | ⟨c, cs', rfl, hc⟩
  · exact absurd rfl hne
  · exact ⟨_, _, lexemes_opening⟩
  · exact ⟨_, _, lexemes_closing⟩
  · exact ⟨_, _, lexemes_word hc⟩

/-- The line and the column of a place are those of its characters. -/
theorem position_ofText {text : String} (h : fromToken p.token text.toList = w ++ cs)
    (hlen : w.length = p.offset) (hline : '\n' ∉ w) :
    (Layout.ofText text).position p = positionAt text (offsetIn text.toList p) := by
  rw [Layout.position, Layout.ofText, positionAt, offsetIn_eq h hlen]
  by_cases hnil : fromToken p.token text.toList = []
  · have hcs : cs = [] := (List.append_eq_nil_iff.mp (h.symm.trans hnil)).2
    have hnone : (lexemes Position.start text.toList)[p.token]? = none := by
      have hdrop := tokens_fromToken p.token text.toList
      rw [hnil, tokens_nil, eq_comm, List.drop_eq_nil_iff, tokens, List.length_map] at hdrop
      exact List.getElem?_eq_none hdrop
    rw [hnone, hcs, List.length_nil, Nat.sub_zero, List.take_length]
  · obtain ⟨front, hfront, hcount, hsep⟩ := exists_front hnil
    obtain ⟨t, rest, hhead⟩ := start_head_lexemes tight_fromToken hnil (Position.start.advance front)
    have hcount' : (lexemes Position.start front).length = p.token := by
      rw [← hcount, tokens, List.length_map]
    have hsome : (lexemes Position.start text.toList)[p.token]? =
        some ⟨t, Position.start.advance front⟩ := by
      rw [hfront, hsep _ _ id, hhead, ← hcount', List.getElem?_append_right (Nat.le_refl _), Nat.sub_self]
      rfl
    have htake : text.toList.take (text.toList.length - cs.length) = front ++ w := by
      rw [hfront, h, ← List.append_assoc, List.length_append, Nat.add_sub_cancel, List.take_left]
    rw [hsome, htake, Position.advance_append, Position.advance_eq_right hline, hlen]

theorem Stands.position_eq {text : String} (h : Stands text.toList p cs) :
    (Layout.ofText text).position p = positionAt text (offsetIn text.toList p) := by
  obtain ⟨w, hw, hlen, hword, -⟩ := h.exists_word
  exact position_ofText hw hlen fun hline => absurd (hword _ hline) (by decide)

/-! ## Tokens before a place -/

/-- The first characters of a word. -/
def Token.firstChars (n : Nat) : Token → Token
  | .word chars => .word (chars.take n)
  | t => t

/-- The tokens before a place. Of the word in which the place lies, these are the characters before it. -/
def tokensTo (ts : List Token) (p : Place) : List Token :=
  ts.take p.token ++ if p.offset = 0 then [] else (ts.drop p.token).head?.toList.map (Token.firstChars p.offset)

/-- The tokens before a place are those of the characters before it. -/
theorem Stands.tokens_take (h : Stands text p cs) :
    tokens (text.take (offsetIn text p)) = tokensTo (tokens text) p := by
  obtain ⟨w, hw, hlen, hword, hstart⟩ := h.exists_word
  have htake := h.take_append
  by_cases hnil : fromToken p.token text = []
  · obtain ⟨hwnil, hcs⟩ := List.append_eq_nil_iff.mp (hw.symm.trans hnil)
    rw [hcs, List.append_nil] at htake
    have hdrop := tokens_fromToken p.token text
    rw [hnil, tokens_nil, eq_comm, List.drop_eq_nil_iff] at hdrop
    rw [hwnil, List.length_nil] at hlen
    rw [htake, tokensTo, if_pos hlen.symm, List.take_of_length_le hdrop, List.append_nil]
  · obtain ⟨front, hfront, hcount, hsep⟩ := exists_front hnil
    have hbefore : text.take (offsetIn text p) = front ++ w := by
      have htext : text = front ++ w ++ cs := by rw [List.append_assoc, ← hw, ← hfront]
      exact List.append_cancel_right (htake.trans htext)
    have htokens : tokens text = tokens front ++ tokens (w ++ cs) := by
      rw [← hw, ← hsep.tokens_append id, ← hfront]
    have hwstart : StartsWord w → StartsWord (fromToken p.token text) := by
      rw [hw]
      exact StartsWord.append
    rw [hbefore, hsep.tokens_append hwstart, tokensTo, htokens, ← hcount, List.take_left, List.drop_left,
      ← hlen]
    refine congrArg _ ?_
    by_cases hwnil : w = []
    · rw [hwnil, tokens_nil, List.length_nil, if_pos rfl]
    · have hlenne : w.length ≠ 0 := fun hzero => hwnil (List.length_eq_zero_iff.mp hzero)
      have hone : tokens (w ++ []) = .word w :: tokens [] := tokens_word_append hwnil hword (by simp)
      rw [List.append_nil, tokens_nil] at hone
      rw [hone, if_neg hlenne, tokens_append hwnil hword]
      simp [Token.firstChars]

end GraphHom
