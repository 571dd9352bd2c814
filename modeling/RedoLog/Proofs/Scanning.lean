import Mathlib.Tactic.SplitIfs
import RedoLog.Token.Lexer

/-!
# Pieces and tokens in their source

The pieces of a source and the gap behind them, written one after the other, are the source. So
every token lies between the byte offsets that it names.
-/

set_option autoImplicit false

namespace RedoLog

namespace Text

theorem take_bytes_byte_length (cs ds : List Char) :
    takeBytes? (byteLength cs) (cs ++ ds) = some cs := by
  induction cs with
  | nil => simp [byteLength, takeBytes?]
  | cons c cs ih =>
    obtain ⟨n, hn⟩ : ∃ n, byteLength (c :: cs) = n + 1 :=
      ⟨c.utf8Size - 1 + byteLength cs, by have := c.utf8Size_pos; simp only [byteLength]; omega⟩
    have hc : c.utf8Size ≤ n + 1 := by rw [← hn]; simp [byteLength]
    have hrest : n + 1 - c.utf8Size = byteLength cs := by rw [← hn]; simp [byteLength]
    rw [hn, List.cons_append, takeBytes?, if_pos hc, hrest, ih]
    rfl

theorem drop_bytes_byte_length (cs ds : List Char) :
    dropBytes? (byteLength cs) (cs ++ ds) = some ds := by
  induction cs with
  | nil => simp [byteLength, dropBytes?]
  | cons c cs ih =>
    obtain ⟨n, hn⟩ : ∃ n, byteLength (c :: cs) = n + 1 :=
      ⟨c.utf8Size - 1 + byteLength cs, by have := c.utf8Size_pos; simp only [byteLength]; omega⟩
    have hc : c.utf8Size ≤ n + 1 := by rw [← hn]; simp [byteLength]
    have hrest : n + 1 - c.utf8Size = byteLength cs := by rw [← hn]; simp [byteLength]
    rw [hn, List.cons_append, dropBytes?, if_pos hc, hrest, ih]

theorem slice_byte_length (before cs behind : List Char) :
    slice? (byteLength before) (byteLength before + byteLength cs) (before ++ (cs ++ behind)) =
      some cs := by
  rw [slice?, if_pos (Nat.le_add_right _ _), drop_bytes_byte_length, Option.bind_some,
    Nat.add_sub_cancel_left, take_bytes_byte_length]

theorem take_bytes_append {n : Nat} {cs : List Char} (h : n ≤ byteLength cs) (ds : List Char) :
    takeBytes? n (cs ++ ds) = takeBytes? n cs := by
  induction cs generalizing n with
  | nil =>
    obtain rfl : n = 0 := Nat.le_zero.mp h
    simp [takeBytes?]
  | cons c cs ih =>
    cases n with
    | zero => simp [takeBytes?]
    | succ n =>
      simp only [byteLength] at h
      rw [List.cons_append, takeBytes?, takeBytes?, ih (by omega)]

theorem drop_bytes_append {n : Nat} {cs : List Char} (h : n ≤ byteLength cs) (ds : List Char) :
    dropBytes? n (cs ++ ds) = (dropBytes? n cs).map (· ++ ds) := by
  induction cs generalizing n with
  | nil =>
    obtain rfl : n = 0 := Nat.le_zero.mp h
    simp [dropBytes?]
  | cons c cs ih =>
    cases n with
    | zero => simp [dropBytes?]
    | succ n =>
      simp only [byteLength] at h
      rw [List.cons_append, dropBytes?, dropBytes?, ih (by omega)]
      split <;> rfl

theorem split_of_drop_bytes {n : Nat} {cs ds : List Char} (h : dropBytes? n cs = some ds) :
    ∃ before, cs = before ++ ds ∧ byteLength before = n := by
  induction cs generalizing n with
  | nil =>
    cases n with
    | zero => exact ⟨[], by simpa [dropBytes?] using h, rfl⟩
    | succ n => cases h
  | cons c cs ih =>
    cases n with
    | zero => exact ⟨[], by simpa [dropBytes?] using h, rfl⟩
    | succ n =>
      rw [dropBytes?] at h
      split at h
      · obtain ⟨before, rfl, hbefore⟩ := ih h
        refine ⟨c :: before, rfl, ?_⟩
        simp only [byteLength]
        omega
      · cases h

theorem split_of_take_bytes {n : Nat} {cs ds : List Char} (h : takeBytes? n cs = some ds) :
    ∃ behind, cs = ds ++ behind ∧ byteLength ds = n := by
  induction cs generalizing n ds with
  | nil =>
    cases n with
    | zero => exact ⟨[], by simpa [takeBytes?] using h, by cases h; rfl⟩
    | succ n => cases h
  | cons c cs ih =>
    cases n with
    | zero =>
      cases h
      exact ⟨c :: cs, rfl, rfl⟩
    | succ n =>
      rw [takeBytes?] at h
      split at h
      · obtain ⟨es, hes, rfl⟩ := Option.map_eq_some_iff.mp h
        obtain ⟨behind, rfl, hbehind⟩ := ih hes
        refine ⟨behind, rfl, ?_⟩
        simp only [byteLength]
        omega
      · cases h

theorem byte_length_of_drop_bytes {n : Nat} {cs ds : List Char} (h : dropBytes? n cs = some ds) :
    byteLength cs = n + byteLength ds := by
  obtain ⟨before, rfl, rfl⟩ := split_of_drop_bytes h
  exact byte_length_append before ds

theorem slice_append {start stop : Nat} {cs : List Char} (h : stop ≤ byteLength cs)
    (ds : List Char) : slice? start stop (cs ++ ds) = slice? start stop cs := by
  unfold slice?
  split
  · rename_i hle
    rw [drop_bytes_append (by omega)]
    cases hdrop : dropBytes? start cs with
    | none => rfl
    | some rest =>
      have hlength := byte_length_of_drop_bytes hdrop
      simp only [Option.map_some, Option.bind_some]
      exact take_bytes_append (by omega) ds
  · rfl

/-- Two texts with which one text starts are the same if they have the same length. -/
theorem eq_of_byte_length_eq {cs cs' ds ds' : List Char} (happend : cs ++ ds = cs' ++ ds')
    (hlength : byteLength cs = byteLength cs') : cs = cs' := by
  have htake := take_bytes_byte_length cs ds
  rw [happend, hlength, take_bytes_byte_length] at htake
  exact (Option.some.inj htake).symm

end Text

def Token.StandsIn (source : List Char) (t : Token) : Prop :=
  Text.slice? t.start t.stop source = some t.text.toList

namespace Lexer

theorem split_gap_append (p : Place) (cs : List Char) :
    (splitGap p cs).1 ++ (splitGap p cs).2 = cs := by
  fun_induction splitGap p cs <;> simp_all

theorem split_quoted_append (quote : Char) (cs text rest : List Char)
    (h : splitQuoted? quote cs = some (text, rest)) : text ++ rest = cs := by
  fun_induction splitQuoted? quote cs generalizing text rest with
  | case1 => simp at h
  | case2 => simp at h; simp [← h.1, ← h.2]
  | case3 => simp at h
  | case4 cs ih =>
    obtain ⟨⟨t, r⟩, hsplit, hcons⟩ := Option.map_eq_some_iff.mp h
    obtain ⟨rfl, rfl⟩ := Prod.mk.inj hcons
    simp [ih t r hsplit]
  | case5 => simp at h; simp [← h.1, ← h.2]
  | case6 c d cs _ ih =>
    obtain ⟨⟨t, r⟩, hsplit, hcons⟩ := Option.map_eq_some_iff.mp h
    obtain ⟨rfl, rfl⟩ := Prod.mk.inj hcons
    simp [ih t r hsplit]

theorem split_fraction_append (cs : List Char) :
    (splitFraction cs).1 ++ (splitFraction cs).2 = cs := by
  unfold splitFraction
  split <;> simp [Text.split_digits_append]

theorem split_exponent_append (cs : List Char) :
    (splitExponent cs).1 ++ (splitExponent cs).2 = cs := by
  unfold splitExponent
  split
  · split_ifs <;> simp [Text.split_digits_append]
  · split_ifs <;> simp
  · simp

theorem split_number_append (cs : List Char) : (splitNumber cs).1 ++ (splitNumber cs).2 = cs := by
  simp only [splitNumber, List.append_assoc]
  rw [split_exponent_append, split_fraction_append, Text.split_digits_append]

theorem scan_quoted_append (quote : Char) (kind : TokenKind) (fault : LexFault) (cs : List Char) :
    (scanQuoted quote kind fault cs).text ++ (scanQuoted quote kind fault cs).rest =
      quote :: cs := by
  unfold scanQuoted
  split
  · rename_i text rest h
    simp [split_quoted_append quote cs text rest h]
  · simp

theorem symbol_size (cs : List Char) (kind : TokenKind) (size : Nat)
    (h : symbol? cs = some (kind, size)) : 1 ≤ size ∧ size ≤ cs.length := by
  unfold symbol? at h
  split at h <;> simp_all <;> omega

theorem scan_append (c : Char) (cs : List Char) :
    (scan c cs).text ++ (scan c cs).rest = c :: cs := by
  unfold scan
  split_ifs with hnumber htext hname hword
  · exact split_number_append (c :: cs)
  · rw [scan_quoted_append, htext]
  · rw [scan_quoted_append, hname]
  · simp
  · split <;> simp

theorem split_number_ne_nil (cs : List Char) (h : startsNumber cs = true) :
    (splitNumber cs).1 ≠ [] := by
  unfold startsNumber at h
  split at h
  · simp [splitNumber, splitFraction, Text.splitDigits]
  · rename_i c cs _
    simp [splitNumber, Text.splitDigits, h]
  · simp at h

theorem scan_text_ne_nil (c : Char) (cs : List Char) : (scan c cs).text ≠ [] := by
  unfold scan
  split_ifs with hnumber
  · exact split_number_ne_nil (c :: cs) hnumber
  · unfold scanQuoted
    split <;> simp
  · unfold scanQuoted
    split <;> simp
  · simp
  · split
    · rename_i kind size hsymbol
      have hsize := symbol_size (c :: cs) kind size hsymbol
      simp
      omega
    · simp

theorem scan_rest_length (c : Char) (cs : List Char) : (scan c cs).rest.length ≤ cs.length := by
  have happend := congrArg List.length (scan_append c cs)
  have htext := List.length_pos_iff.mpr (scan_text_ne_nil c cs)
  simp only [List.length_append, List.length_cons] at happend
  omega

def spelled : List Piece → List Char
  | [] => []
  | piece :: more => piece.gap ++ (piece.text ++ spelled more)

theorem spelled_append (ps qs : List Piece) : spelled (ps ++ qs) = spelled ps ++ spelled qs := by
  induction ps with
  | nil => rfl
  | cons p ps ih => simp [spelled, ih]

/-- Nothing of a text is lost or moved when it is cut. -/
theorem spelled_pieces (fuel : Nat) (cs : List Char) (h : cs.length ≤ fuel) :
    spelled (pieces fuel cs).1 ++ (pieces fuel cs).2 = cs := by
  induction fuel generalizing cs with
  | zero =>
    have hcs : cs = [] := List.length_eq_zero_iff.mp (Nat.le_zero.mp h)
    subst hcs
    rfl
  | succ fuel ih =>
    have hgap := split_gap_append .between cs
    unfold pieces
    split
    · rename_i gap hsplit
      simpa [spelled, hsplit] using hgap
    · rename_i gap c rest hsplit
      rw [hsplit] at hgap
      have hlength := congrArg List.length hgap
      simp only [List.length_append, List.length_cons] at hlength
      have hrest := scan_rest_length c rest
      have hmore := ih (scan c rest).rest (by omega)
      simp only [spelled, List.append_assoc]
      rw [hmore, scan_append]
      exact hgap

theorem stands_in_place (before behind : List Char) (index : Nat) (ps : List Piece) :
    ∀ t ∈ place (Text.byteLength before) index ps,
      t.StandsIn (before ++ (spelled ps ++ behind)) := by
  induction ps generalizing before index with
  | nil => simp [place]
  | cons p ps ih =>
    have hstart : Text.byteLength before + Text.byteLength p.gap =
        Text.byteLength (before ++ p.gap) := (Text.byte_length_append _ _).symm
    have hnext : Text.byteLength before + Text.byteLength p.gap + Text.byteLength p.text =
        Text.byteLength (before ++ (p.gap ++ p.text)) := by
      simp [Text.byte_length_append, Nat.add_assoc]
    have hsource : before ++ (spelled (p :: ps) ++ behind) =
        before ++ (p.gap ++ p.text) ++ (spelled ps ++ behind) := by
      simp [spelled]
    intro t ht
    simp only [place, hnext] at ht
    rw [hsource]
    cases hitem : p.item with
    | fault fault => exact ih _ index t (by simpa [hitem] using ht)
    | token kind =>
      simp only [hitem, List.mem_cons] at ht
      rcases ht with rfl | ht
      · have hslice := Text.slice_byte_length (before ++ p.gap) p.text (spelled ps ++ behind)
        simpa [Token.StandsIn, Token.stop, hstart] using hslice
      · exact ih _ (index + 1) t ht

theorem lex_eq_ok {source : List Char} {ts : List Token} (h : lex source = .ok ts) :
    faults 0 (pieces source.length source).1 = [] ∧
      ts = place 0 0 (pieces source.length source).1 := by
  simp only [lex] at h
  split at h
  · rename_i hfaults
    exact ⟨hfaults, (Except.ok.inj h).symm⟩
  · simp at h

theorem stands_in_of_lex {source : List Char} {ts : List Token} (h : lex source = .ok ts) :
    ∀ t ∈ ts, t.StandsIn source := by
  have hstands := stands_in_place [] (pieces source.length source).2 0
    (pieces source.length source).1
  rw [List.nil_append, spelled_pieces source.length source (Nat.le_refl _)] at hstands
  rw [(lex_eq_ok h).2]
  exact hstands

end Lexer

end RedoLog
