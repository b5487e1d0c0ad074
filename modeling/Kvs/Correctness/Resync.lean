import Kvs.Server.ParserStores

/-!
# `Correctness.Resync` — when a line ends where its newline is

After `get_next` and the parser it selects have handled a line `L`, the next read should start right
behind the newline of `L`. Three kinds of lines break that. A line that *overruns* has its newline consumed
before an error calls `cleanup`, which then skips (part of) the next line: a keyword cut short, a `WAIT`
out of range, a list that stops early, and every malformed pair of a `WRITE`, where `parse_pair` and
`parse_write` both call `cleanup`. A line that *stops at a NUL* is taken as ended there, and the rest of
it is read as the next line. And a `WAIT` with a number of more than 15 digits
leaves the 16 bytes of `read_uint`. The kinds are described by their text (`Overrun`, `NulStop`,
`LongNumber`), and they are all (`jobRound_resync_iff`).
-/

namespace Kvs.Server

/-! ## The lines that break -/

/-- After `[(`, with `room` pairs still to go in: the pair is malformed, or the line stops behind it. -/
inductive PairsOverrun : Nat → List Byte → Prop where
  | malformed {room : Nat} {P : List Byte}
      (h : ∀ k v rest, IsToken MAX_STRING_SIZE k → IsToken MAX_STRING_SIZE v →
        P ≠ k ++ COMMA :: (v ++ RPAREN :: rest)) : PairsOverrun (room + 1) P
  | stops {room : Nat} {k v : List Byte} (hk : IsToken MAX_STRING_SIZE k)
      (hv : IsToken MAX_STRING_SIZE v) : PairsOverrun (room + 1) (k ++ COMMA :: (v ++ [RPAREN]))
  | more {room : Nat} {k v P : List Byte} (hk : IsToken MAX_STRING_SIZE k)
      (hv : IsToken MAX_STRING_SIZE v) (h : PairsOverrun room P) :
      PairsOverrun (room + 1) (k ++ COMMA :: (v ++ RPAREN :: LPAREN :: P))

/-- After `[`, with `room` keys still to go in: the line stops inside a key. -/
inductive KeysOverrun : Nat → List Byte → Prop where
  | stops {room : Nat} {k : List Byte} (hk : IsToken MAX_STRING_SIZE k) : KeysOverrun (room + 1) k
  | more {room : Nat} {k P : List Byte} (hk : IsToken MAX_STRING_SIZE k) (h : KeysOverrun room P) :
      KeysOverrun (room + 1) (k ++ COMMA :: P)

/-- After `[(`: pairs, a closing bracket before the last row is taken, a NUL. -/
inductive PairsNul : Nat → List Byte → Prop where
  | close {room : Nat} {k v : List Byte} (hk : IsToken MAX_STRING_SIZE k)
      (hv : IsToken MAX_STRING_SIZE v) (rest : List Byte) :
      PairsNul (room + 2) (k ++ COMMA :: (v ++ RPAREN :: RBRACK :: 0 :: rest))
  | more {room : Nat} {k v P : List Byte} (hk : IsToken MAX_STRING_SIZE k)
      (hv : IsToken MAX_STRING_SIZE v) (h : PairsNul room P) :
      PairsNul (room + 1) (k ++ COMMA :: (v ++ RPAREN :: LPAREN :: P))

/-- After `[`: keys, a closing bracket before the last row is taken, a NUL. -/
inductive KeysNul : Nat → List Byte → Prop where
  | close {room : Nat} {k : List Byte} (hk : IsToken MAX_STRING_SIZE k) (rest : List Byte) :
      KeysNul (room + 2) (k ++ RBRACK :: 0 :: rest)
  | more {room : Nat} {k P : List Byte} (hk : IsToken MAX_STRING_SIZE k) (h : KeysNul room P) :
      KeysNul (room + 1) (k ++ COMMA :: P)

/-- The keywords, each read at one stroke as soon as its first byte is seen. -/
def keywords : List (List Byte) :=
  [ascii "WRITE ", ascii "READ ", ascii "DELETE ", ascii "SHOW", ascii "BACKUP", ascii "HELP"]

/-- The keywords of the commands whose argument is a list of keys. -/
def listKeywords : List (List Byte) := [ascii "READ ", ascii "DELETE "]

/-- **The lines that take the next line with them.** -/
inductive Overrun : List Byte → Prop where
  | cutShort {L keyword : List Byte} (hkeyword : keyword ∈ keywords) (hfirst : L.head? = keyword.head?)
      (hshort : L.length < keyword.length) (hwait : ¬ ascii "WAIT " <+: L) : Overrun L
  | outOfRange {ds : List Byte} (hds : ∀ b ∈ ds, isDigit b = true) (hbig : UINT_MAX < digitsValue ds) :
      Overrun (ascii "WAIT " ++ ds)
  | noList {keyword : List Byte} (hkeyword : keyword ∈ ascii "WRITE " :: listKeywords) :
      Overrun keyword
  | noPair : Overrun (ascii "WRITE [")
  | pairs {P : List Byte} (h : PairsOverrun MAX_WRITE_SIZE P) : Overrun (ascii "WRITE [(" ++ P)
  | keys {keyword P : List Byte} (hkeyword : keyword ∈ listKeywords)
      (h : KeysOverrun MAX_WRITE_SIZE P) : Overrun (keyword ++ LBRACK :: P)

/-- **The lines that end at a NUL.** -/
inductive NulStop : List Byte → Prop where
  | wait {ds : List Byte} (hds : ∀ b ∈ ds, isDigit b = true) (hrange : digitsValue ds ≤ UINT_MAX)
      (rest : List Byte) : NulStop (ascii "WAIT " ++ (ds ++ 0 :: rest))
  | pairs {P : List Byte} (h : PairsNul MAX_WRITE_SIZE P) : NulStop (ascii "WRITE [(" ++ P)
  | keys {keyword P : List Byte} (hkeyword : keyword ∈ listKeywords) (h : KeysNul MAX_WRITE_SIZE P) :
      NulStop (keyword ++ LBRACK :: P)

/-! ## Positions -/

/-- The position `s` is beyond the start of the next line `R`, unless there is no next line. -/
def Beyond (R s : Stream) : Prop := s.length < R.length ∨ R = [] ∧ s = []

theorem Beyond.mono {R s s' : Stream} (h : Beyond R s) (hs : s' <:+ s) : Beyond R s' := by
  rcases h with h | ⟨hR, rfl⟩
  · exact Or.inl (Nat.lt_of_le_of_lt hs.length_le h)
  · exact Or.inr ⟨hR, List.suffix_nil.mp hs⟩

/-- A `cleanup` from the start of the next line, or from behind it. -/
theorem beyond_cleanup {R s : Stream} (hs : s <:+ R) : Beyond R (cleanup s) := by
  cases s with
  | nil =>
      cases R with
      | nil => exact Or.inr ⟨rfl, rfl⟩
      | cons b R => exact Or.inl (by simp [cleanup])
  | cons b s =>
      left
      have hle : (cleanup (b :: s)).length ≤ s.length := by
        rw [cleanup]
        split
        · exact Nat.le_refl _
        · exact (cleanup_suffix s).length_le
      have hlen := hs.length_le
      rw [List.length_cons] at hlen
      omega

/-- Where a position lies that is beyond the next line, or in front of it, or at its start: it is at the
    start exactly when it is not in front, and not beyond, or there is no text to be beyond. -/
theorem position_iff {overruns short : Prop} {R s : Stream} (hover : overruns → Beyond R s)
    (hshort : short → R.length < s.length) (hcases : overruns ∨ short ∨ s = R) :
    s = R ↔ ¬ short ∧ (¬ overruns ∨ R = []) := by
  constructor
  · rintro rfl
    constructor
    · intro h
      exact absurd (hshort h) (Nat.lt_irrefl _)
    · by_cases h : overruns
      · rcases hover h with hlt | ⟨hs, -⟩
        · exact absurd hlt (Nat.lt_irrefl _)
        · exact Or.inr hs
      · exact Or.inl h
  · rintro ⟨hnot, hnext⟩
    rcases hcases with h | h | h
    · -- beyond the end of the text is its end
      obtain rfl := hnext.resolve_left (not_not.mpr h)
      rcases hover h with hlt | ⟨-, hs⟩
      · exact absurd hlt (by simp)
      · exact hs
    · exact absurd h hnot
    · exact h

/-! ## Strings -/

/-- How the bytes of a line up to the end of a string lie: the string is too long, it has a delimiter or
    a space in time, or the line stops inside it. -/
theorem token_cases (max : Nat) (P : List Byte) :
    (∃ t rest, P = t ++ rest ∧ (∀ b ∈ t, isPlain b) ∧ t.length = max) ∨
    (∃ t d rest, P = t ++ d :: rest ∧ IsToken max t ∧ ¬ isPlain d) ∨
    IsToken max P := by
  induction P generalizing max with
  | nil =>
      cases max with
      | zero => exact Or.inl ⟨[], [], rfl, by simp, rfl⟩
      | succ max => exact Or.inr (Or.inr ⟨by simp, by simp⟩)
  | cons b P ih =>
      cases max with
      | zero => exact Or.inl ⟨[], b :: P, rfl, by simp, rfl⟩
      | succ max =>
          by_cases hb : isPlain b
          · have hcons : ∀ {t : List Byte}, (∀ c ∈ t, isPlain c) → ∀ c ∈ b :: t, isPlain c := by
              intro t ht c hc
              rcases List.mem_cons.mp hc with rfl | hc'
              · exact hb
              · exact ht c hc'
            rcases ih max with ⟨t, rest, rfl, ht, hlen⟩ | ⟨t, d, rest, rfl, ht, hd⟩ | ht
            · exact Or.inl ⟨b :: t, rest, rfl, hcons ht, by rw [List.length_cons, hlen]⟩
            · exact Or.inr (Or.inl ⟨b :: t, d, rest, rfl,
                ⟨hcons ht.1, Nat.succ_lt_succ ht.2⟩, hd⟩)
            · exact Or.inr (Or.inr ⟨hcons ht.1, Nat.succ_lt_succ ht.2⟩)
          · exact Or.inr (Or.inl ⟨[], b, P, rfl, ⟨by simp, by simp⟩, hb⟩)

/-- A string too long for its buffer. -/
theorem readString_tooLong {max : Nat} {t : List Byte} (ht : ∀ b ∈ t, isPlain b)
    (hlen : t.length = max) (s : Stream) : readString max (t ++ s) = ⟨-1, t ++ [0], s⟩ := by
  rw [readString_append ht hlen.le, hlen, Nat.sub_self]
  rfl

/-- A string that ends at a byte that is not plain: its value, and the position behind that byte. -/
theorem readString_stop {max : Nat} {t : List Byte} (ht : IsToken max t) {d : Byte}
    (hd : ¬ isPlain d) (s : Stream) :
    (readString max (t ++ d :: s)).rest = s ∧
      ((readString max (t ++ d :: s)).value = 0 → d = COMMA) ∧
      ((readString max (t ++ d :: s)).value = 1 → d = RPAREN) ∧
      ((readString max (t ++ d :: s)).value = 2 → d = RBRACK) := by
  by_cases hcomma : d = COMMA
  · subst hcomma
    rw [@readString_token _ t ht COMMA 0 (by simp)]
    simp
  · by_cases hrparen : d = RPAREN
    · subst hrparen
      rw [@readString_token _ t ht RPAREN 1 (by simp)]
      simp
    · by_cases hrbrack : d = RBRACK
      · subst hrbrack
        rw [@readString_token _ t ht RBRACK 2 (by simp)]
        simp
      · -- a space
        have hsp : d = SP := by
          by_contra hsp
          exact hd ⟨hsp, hcomma, hrparen, hrbrack⟩
        obtain ⟨n, hn⟩ : ∃ n, max - t.length = n + 1 :=
          ⟨max - t.length - 1, by have := ht.2; omega⟩
        rw [readString_append ht.1 ht.2.le, hn, readString, if_pos hsp]
        simp

theorem readString_value_range (max : Nat) (s : Stream) :
    -1 ≤ (readString max s).value ∧ (readString max s).value ≤ 2 := by
  induction max generalizing s with
  | zero => simp [readString]
  | succ max ih =>
      cases s with
      | nil => simp [readString]
      | cons ch s =>
          rw [readString]
          split_ifs
          · simp
          · simp
          · simp
          · simp
          · exact ih s

/-- A string that runs through the newline: it ends in the next line, and behind its start unless it has
    become too long there. -/
theorem readString_cross {max : Nat} {t : List Byte} (ht : IsToken max t) (R : Stream) :
    (readString max (t ++ NL :: R)).rest <:+ R ∧
      ((readString max (t ++ NL :: R)).value ≠ -1 → (readString max (t ++ NL :: R)).rest.length
        < R.length) := by
  obtain ⟨n, hn⟩ : ∃ n, max - t.length = n + 1 := ⟨max - t.length - 1, by have := ht.2; omega⟩
  have hplain : ∀ b ∈ [NL], isPlain b := by
    intro b hb
    rw [List.mem_singleton.mp hb]
    exact ⟨by decide, by decide, by decide, by decide⟩
  have hnl := @readString_append [NL] hplain (n + 1) (by simp) R
  rw [readString_append ht.1 ht.2.le, hn, ← List.singleton_append, hnl]
  refine ⟨readString_suffix _ R, fun hvalue => ?_⟩
  simp only [List.length_singleton, Nat.add_sub_cancel] at hvalue ⊢
  cases n with
  | zero => exact absurd rfl hvalue
  | succ n =>
      cases R with
      | nil => exact absurd rfl hvalue
      | cons b R =>
          have hle : (readString (n + 1) (b :: R)).rest.length ≤ R.length := by
            rw [readString]
            split_ifs
            · exact Nat.le_refl _
            · exact Nat.le_refl _
            · exact Nat.le_refl _
            · exact Nat.le_refl _
            · exact (readString_suffix n R).length_le
          exact Nat.lt_succ_of_le hle

/-! ## Lists of pairs -/

/-- A malformed pair: either its line has been skipped, once, or the position is beyond its end. -/
theorem parsePair_malformed {P : List Byte} (hP : NL ∉ P)
    (h : ∀ k v rest, IsToken MAX_STRING_SIZE k → IsToken MAX_STRING_SIZE v →
      P ≠ k ++ COMMA :: (v ++ RPAREN :: rest)) (R : Stream) :
    (parsePair (P ++ NL :: R)).1 = none ∧ (parsePair (P ++ NL :: R)).2 = R ∨
      Beyond R (parsePair (P ++ NL :: R)).2 := by
  unfold parsePair
  simp only
  rcases token_cases MAX_STRING_SIZE P with ⟨t, rest, rfl, ht, hlen⟩ | ⟨t, d, rest, rfl, ht, hd⟩ | ht
  · -- the key is too long
    have hrest : NL ∉ rest := fun hmem => hP (List.mem_append_right t hmem)
    rw [List.append_assoc, readString_tooLong ht hlen, if_pos (by simp)]
    exact Or.inl ⟨rfl, cleanup_line hrest R⟩
  · -- the key ends at a delimiter or a space
    have hrest : NL ∉ rest := fun hmem => hP (List.mem_append_right t (List.mem_cons_of_mem d hmem))
    rw [List.append_assoc, List.cons_append]
    obtain ⟨hpos, hcomma, -, -⟩ := readString_stop ht hd (rest ++ NL :: R)
    by_cases hvalue : (readString MAX_STRING_SIZE (t ++ d :: (rest ++ NL :: R))).value = 0
    · -- the key is good, so the value is not
      obtain rfl := hcomma hvalue
      rw [if_neg (not_not.mpr hvalue), hpos]
      rcases token_cases MAX_STRING_SIZE rest with
        ⟨u, rest', rfl, hu, hlen⟩ | ⟨u, d', rest', rfl, hu, hd'⟩ | hu
      · -- the value is too long
        have hrest' : NL ∉ rest' := fun hmem => hrest (List.mem_append_right u hmem)
        rw [List.append_assoc, readString_tooLong hu hlen, if_pos (by simp)]
        exact Or.inl ⟨rfl, cleanup_line hrest' R⟩
      · -- the value ends at something else than a closing bracket
        have hrest' : NL ∉ rest' :=
          fun hmem => hrest (List.mem_append_right u (List.mem_cons_of_mem d' hmem))
        rw [List.append_assoc, List.cons_append]
        obtain ⟨hpos', -, hrparen, -⟩ := readString_stop hu hd' (rest' ++ NL :: R)
        have hbad : (readString MAX_STRING_SIZE (u ++ d' :: (rest' ++ NL :: R))).value ≠ 1 := by
          intro hone
          obtain rfl := hrparen hone
          exact h t u rest' ht hu rfl
        rw [if_pos hbad, hpos']
        exact Or.inl ⟨rfl, cleanup_line hrest' R⟩
      · -- the value runs through the newline
        obtain ⟨hsuffix, hlt⟩ := readString_cross hu R
        right
        split
        · exact beyond_cleanup hsuffix
        · rename_i hone
          exact Or.inl (hlt (by rw [not_not.mp hone]; decide))
    · -- the key ends at the wrong byte
      rw [if_pos hvalue, hpos]
      exact Or.inl ⟨rfl, cleanup_line hrest R⟩
  · -- the key runs through the newline
    obtain ⟨hsuffix, hlt⟩ := readString_cross ht R
    right
    split
    · exact beyond_cleanup hsuffix
    · rename_i hzero
      have hbeyond : Beyond R (readString MAX_STRING_SIZE (P ++ NL :: R)).rest :=
        Or.inl (hlt (by rw [not_not.mp hzero]; decide))
      split
      · exact hbeyond.mono ((cleanup_suffix _).trans (readString_suffix _ _))
      · exact hbeyond.mono (readString_suffix _ _)

/-- Whatever follows, the pair loop ends at or behind the position its first pair leaves, and behind a
    further `cleanup` where that pair is malformed. -/
theorem pairsLoop_after_pair (maxPairs room : Nat) (stored : List (CStr × CStr)) (s : Stream) :
    (pairsLoop maxPairs (room + 1) stored s).rest <:+ (parsePair s).2 ∧
      ((parsePair s).1 = none →
        (pairsLoop maxPairs (room + 1) stored s).rest = cleanup (parsePair s).2) := by
  rw [pairsLoop]
  split
  · rename_i s' heq
    rw [heq]
    exact ⟨cleanup_suffix s', fun _ => rfl⟩
  · rename_i pair s' heq
    rw [heq]
    refine ⟨?_, fun hnone => absurd hnone (by simp)⟩
    cases s' with
    | nil => exact List.nil_suffix
    | cons ch s' =>
        have hmore := List.suffix_cons ch s'
        simp only
        split_ifs
        · exact (pairsLoop_suffix _ _ _ s').trans hmore
        · exact (closeList_suffix _ _ s').trans hmore
        · exact (cleanup_suffix s').trans hmore

/-- The pair loop behind a well-formed pair. -/
theorem pairsLoop_pair {k v : List Byte} (hk : IsToken MAX_STRING_SIZE k)
    (hv : IsToken MAX_STRING_SIZE v) (maxPairs room : Nat) (stored : List (CStr × CStr)) (ch : Byte)
    (s : Stream) :
    pairsLoop maxPairs (room + 1) stored (k ++ COMMA :: (v ++ RPAREN :: ch :: s))
      = if ch = LPAREN then
          pairsLoop maxPairs room
            (stored ++ [(CStr.ofBuffer (k ++ [0]), CStr.ofBuffer (v ++ [0]))]) s
        else if ch = RBRACK then
          closeList maxPairs (stored ++ [(CStr.ofBuffer (k ++ [0]), CStr.ofBuffer (v ++ [0]))]) s
        else rejected (stored ++ [(CStr.ofBuffer (k ++ [0]), CStr.ofBuffer (v ++ [0]))]) s := by
  rw [pairsLoop, parsePair_tokens hk hv]

theorem pairsLoop_overrun {room : Nat} {P : List Byte} (h : PairsOverrun room P) (hP : NL ∉ P)
    (maxPairs : Nat) (stored : List (CStr × CStr)) (R : Stream) :
    Beyond R (pairsLoop maxPairs room stored (P ++ NL :: R)).rest := by
  induction h generalizing stored with
  | @malformed room P h =>
      obtain ⟨hsuffix, hcleanup⟩ := pairsLoop_after_pair maxPairs room stored (P ++ NL :: R)
      rcases parsePair_malformed hP h R with ⟨hnone, hpos⟩ | hbeyond
      · -- `parse_pair` has skipped the line, and `parse_write` skips another
        rw [hcleanup hnone, hpos]
        exact beyond_cleanup (List.suffix_refl R)
      · exact hbeyond.mono hsuffix
  | @stops room k v hk hv =>
      have htext : k ++ COMMA :: (v ++ [RPAREN]) ++ NL :: R
          = k ++ COMMA :: (v ++ RPAREN :: NL :: R) := by simp
      rw [htext, pairsLoop_pair hk hv]
      exact beyond_cleanup (List.suffix_refl R)
  | @more room k v P hk hv h ih =>
      have hP' : NL ∉ P := fun hmem => hP (by simp [hmem])
      have htext : k ++ COMMA :: (v ++ RPAREN :: LPAREN :: P) ++ NL :: R
          = k ++ COMMA :: (v ++ RPAREN :: LPAREN :: (P ++ NL :: R)) := by simp
      rw [htext, pairsLoop_pair hk hv]
      exact ih hP' _

theorem closeList_nul {α : Type} {max : Nat} {stored : List α} (h : stored.length < max)
    (s : Stream) : (closeList max stored (0 :: s)).rest = s := by
  rw [closeList, if_neg (Nat.ne_of_lt h)]
  rfl

theorem pairsLoop_nul {room : Nat} {P : List Byte} (h : PairsNul room P) {maxPairs : Nat}
    {stored : List (CStr × CStr)} (hroom : stored.length + room = maxPairs) (R : Stream) :
    R.length < (pairsLoop maxPairs room stored (P ++ NL :: R)).rest.length := by
  induction h generalizing stored with
  | @close room k v hk hv rest =>
      have htext : k ++ COMMA :: (v ++ RPAREN :: RBRACK :: 0 :: rest) ++ NL :: R
          = k ++ COMMA :: (v ++ RPAREN :: RBRACK :: (0 :: (rest ++ NL :: R))) := by simp
      rw [htext, pairsLoop_pair hk hv]
      show R.length < (closeList _ _ (0 :: (rest ++ NL :: R))).rest.length
      rw [closeList_nul (by simp; omega)]
      simp only [List.length_append, List.length_cons]
      omega
  | @more room k v P hk hv h ih =>
      have htext : k ++ COMMA :: (v ++ RPAREN :: LPAREN :: P) ++ NL :: R
          = k ++ COMMA :: (v ++ RPAREN :: LPAREN :: (P ++ NL :: R)) := by simp
      rw [htext, pairsLoop_pair hk hv]
      exact ih (by simp; omega)

/-- The byte behind a list: a NUL, the newline, or another byte of the line, whose rest is skipped. -/
theorem readTest_closing {P : List Byte} (hP : NL ∉ P) (R : Stream) :
    (∃ rest, P = 0 :: rest) ∨
      readTest (fun ch => ch = NL || ch = 0) (P ++ NL :: R) = (true, R) ∨
      ∃ s, readTest (fun ch => ch = NL || ch = 0) (P ++ NL :: R) = (false, s) ∧ cleanup s = R := by
  cases P with
  | nil => exact Or.inr (Or.inl rfl)
  | cons b P =>
      rw [List.mem_cons, not_or] at hP
      by_cases hb : b = 0
      · exact Or.inl ⟨P, by rw [hb]⟩
      · refine Or.inr (Or.inr ⟨P ++ NL :: R, ?_, cleanup_line hP.2 R⟩)
        simp [readTest, hb, Ne.symm hP.1]

/-- The end of a list: a NUL right behind it, or the line is handled as one line. -/
theorem closeList_cases {α : Type} {P : List Byte} (hP : NL ∉ P) (max : Nat) (stored : List α)
    (R : Stream) : (closeList max stored (P ++ NL :: R)).rest = R ∨
      stored.length ≠ max ∧ ∃ rest, P = 0 :: rest := by
  rw [closeList]
  by_cases hmax : stored.length = max
  · rw [if_pos hmax]
    exact Or.inl (cleanup_line hP R)
  · rw [if_neg hmax]
    rcases readTest_closing hP R with hnul | htest | ⟨s, htest, hs⟩
    · exact Or.inr ⟨hmax, hnul⟩
    · rw [htest]
      exact Or.inl rfl
    · rw [htest]
      exact Or.inl hs

/-- **Lists of pairs.** A line that neither overruns nor stops at a NUL is handled as one line. -/
theorem pairsLoop_cases {room : Nat} {P : List Byte} (hP : NL ∉ P) {maxPairs : Nat}
    {stored : List (CStr × CStr)} (hroom : stored.length + room = maxPairs) (R : Stream) :
    PairsOverrun room P ∨ PairsNul room P ∨
      (pairsLoop maxPairs room stored (P ++ NL :: R)).rest = R := by
  induction room generalizing P stored with
  | zero =>
      -- no row is left: the rest of the line is skipped
      rw [pairsLoop, closeList, if_pos (by omega)]
      exact Or.inr (Or.inr (cleanup_line hP R))
  | succ room ih =>
      by_cases hpair : ∃ k v rest, IsToken MAX_STRING_SIZE k ∧ IsToken MAX_STRING_SIZE v ∧
          P = k ++ COMMA :: (v ++ RPAREN :: rest)
      · obtain ⟨k, v, rest, hk, hv, rfl⟩ := hpair
        cases rest with
        -- the line stops behind the pair, or goes on with `ch`
        | nil => exact Or.inl (.stops hk hv)
        | cons ch rest =>
            have hrest : NL ∉ rest := fun hmem => hP (by simp [hmem])
            have htext : k ++ COMMA :: (v ++ RPAREN :: ch :: rest) ++ NL :: R
                = k ++ COMMA :: (v ++ RPAREN :: ch :: (rest ++ NL :: R)) := by simp
            rw [htext, pairsLoop_pair hk hv]
            by_cases hlparen : ch = LPAREN
            · subst hlparen
              have hroom' : (stored ++ [(CStr.ofBuffer (k ++ [0]),
                  CStr.ofBuffer (v ++ [0]))]).length + room = maxPairs := by
                rw [List.length_append, List.length_singleton]
                omega
              rw [if_pos rfl]
              rcases ih hrest hroom' with h | h | h
              · exact Or.inl (.more hk hv h)
              · exact Or.inr (Or.inl (.more hk hv h))
              · exact Or.inr (Or.inr h)
            · rw [if_neg hlparen]
              by_cases hrbrack : ch = RBRACK
              · subst hrbrack
                rw [if_pos rfl]
                rcases closeList_cases hrest maxPairs _ R with h | ⟨hfree, rest', rfl⟩
                · exact Or.inr (Or.inr h)
                · obtain ⟨room, rfl⟩ : ∃ n, room = n + 1 := by
                    refine ⟨room - 1, ?_⟩
                    simp only [List.length_append, List.length_singleton] at hfree
                    omega
                  exact Or.inr (Or.inl (.close hk hv rest'))
              · -- neither another pair nor the end of the list
                rw [if_neg hrbrack]
                exact Or.inr (Or.inr (cleanup_line hrest R))
      · -- no well-formed pair: the line is skipped twice
        refine Or.inl (.malformed (fun k v rest hk hv heq => ?_))
        exact hpair ⟨k, v, rest, hk, hv, heq⟩

/-! ## Lists of keys -/

theorem keysLoop_after_key (maxKeys room : Nat) (stored : List CStr) (s : Stream) :
    (keysLoop maxKeys MAX_STRING_SIZE (room + 1) stored s).rest
        <:+ (readString MAX_STRING_SIZE s).rest ∧
      ((readString MAX_STRING_SIZE s).value < 0 ∨ (readString MAX_STRING_SIZE s).value = 1 →
        (keysLoop maxKeys MAX_STRING_SIZE (room + 1) stored s).rest
          = cleanup (readString MAX_STRING_SIZE s).rest) := by
  rw [keysLoop]
  split_ifs with hbad hlast
  · exact ⟨cleanup_suffix _, fun _ => rfl⟩
  · exact ⟨closeList_suffix _ _ _, fun h => absurd h hbad⟩
  · exact ⟨keysLoop_suffix _ _ _ _ _, fun h => absurd h hbad⟩

theorem keysLoop_comma {k : List Byte} (hk : IsToken MAX_STRING_SIZE k) (maxKeys room : Nat)
    (stored : List CStr) (s : Stream) :
    keysLoop maxKeys MAX_STRING_SIZE (room + 1) stored (k ++ COMMA :: s)
      = keysLoop maxKeys MAX_STRING_SIZE room (stored ++ [CStr.ofBuffer (k ++ [0])]) s := by
  rw [keysLoop, @readString_token _ k hk COMMA 0 (by simp)]
  rfl

theorem keysLoop_rbrack {k : List Byte} (hk : IsToken MAX_STRING_SIZE k) (maxKeys room : Nat)
    (stored : List CStr) (s : Stream) :
    keysLoop maxKeys MAX_STRING_SIZE (room + 1) stored (k ++ RBRACK :: s)
      = closeList maxKeys (stored ++ [CStr.ofBuffer (k ++ [0])]) s := by
  rw [keysLoop, @readString_token _ k hk RBRACK 2 (by simp)]
  rfl

theorem keysLoop_overrun {room : Nat} {P : List Byte} (h : KeysOverrun room P) (maxKeys : Nat)
    (stored : List CStr) (R : Stream) :
    Beyond R (keysLoop maxKeys MAX_STRING_SIZE room stored (P ++ NL :: R)).rest := by
  induction h generalizing stored with
  | @stops room k hk =>
      obtain ⟨hsuffix, hlt⟩ := readString_cross hk R
      obtain ⟨hafter, hcleanup⟩ := keysLoop_after_key maxKeys room stored (k ++ NL :: R)
      by_cases hbad : (readString MAX_STRING_SIZE (k ++ NL :: R)).value = -1
      · rw [hcleanup (Or.inl (by rw [hbad]; decide))]
        exact beyond_cleanup hsuffix
      · have hbeyond : Beyond R (readString MAX_STRING_SIZE (k ++ NL :: R)).rest :=
          Or.inl (hlt hbad)
        exact hbeyond.mono hafter
  | @more room k P hk h ih =>
      rw [List.append_assoc, List.cons_append, keysLoop_comma hk]
      exact ih _

theorem keysLoop_nul {room : Nat} {P : List Byte} (h : KeysNul room P) {maxKeys : Nat}
    {stored : List CStr} (hroom : stored.length + room = maxKeys) (R : Stream) :
    R.length < (keysLoop maxKeys MAX_STRING_SIZE room stored (P ++ NL :: R)).rest.length := by
  induction h generalizing stored with
  | @close room k hk rest =>
      rw [List.append_assoc, List.cons_append, List.cons_append, keysLoop_rbrack hk,
        closeList_nul (by simp; omega)]
      simp only [List.length_append, List.length_cons]
      omega
  | @more room k P hk h ih =>
      rw [List.append_assoc, List.cons_append, keysLoop_comma hk]
      exact ih (by simp; omega)

/-- **Lists of keys.** -/
theorem keysLoop_cases {room : Nat} {P : List Byte} (hP : NL ∉ P) {maxKeys : Nat}
    {stored : List CStr} (hroom : stored.length + room = maxKeys) (R : Stream) :
    KeysOverrun room P ∨ KeysNul room P ∨
      (keysLoop maxKeys MAX_STRING_SIZE room stored (P ++ NL :: R)).rest = R := by
  induction room generalizing P stored with
  | zero =>
      -- no row is left: the rest of the line is skipped
      rw [keysLoop, closeList, if_pos (by omega)]
      exact Or.inr (Or.inr (cleanup_line hP R))
  | succ room ih =>
      rcases token_cases MAX_STRING_SIZE P with
        ⟨t, rest, rfl, ht, hlen⟩ | ⟨t, d, rest, rfl, ht, hd⟩ | ht
      · -- the key is too long
        have hrest : NL ∉ rest := fun hmem => hP (List.mem_append_right t hmem)
        have hread := readString_tooLong ht hlen (rest ++ NL :: R)
        obtain ⟨-, hcleanup⟩ := keysLoop_after_key maxKeys room stored (t ++ (rest ++ NL :: R))
        rw [hread] at hcleanup
        have hneg : (-1 : Int) < 0 := by decide
        rw [List.append_assoc, hcleanup (Or.inl hneg)]
        exact Or.inr (Or.inr (cleanup_line hrest R))
      · -- the key ends at `d`
        have hrest : NL ∉ rest :=
          fun hmem => hP (List.mem_append_right t (List.mem_cons_of_mem d hmem))
        have hroom' : (stored ++ [CStr.ofBuffer (t ++ [0])]).length + room = maxKeys := by
          rw [List.length_append, List.length_singleton]
          omega
        rw [List.append_assoc, List.cons_append]
        by_cases hcomma : d = COMMA
        · subst hcomma
          rw [keysLoop_comma ht]
          rcases ih hrest hroom' with h | h | h
          · exact Or.inl (.more ht h)
          · exact Or.inr (Or.inl (.more ht h))
          · exact Or.inr (Or.inr h)
        · by_cases hrbrack : d = RBRACK
          · subst hrbrack
            rw [keysLoop_rbrack ht]
            rcases closeList_cases hrest maxKeys (stored ++ [CStr.ofBuffer (t ++ [0])]) R with
              h | ⟨hfree, rest', rfl⟩
            · exact Or.inr (Or.inr h)
            · obtain ⟨room, rfl⟩ : ∃ n, room = n + 1 := ⟨room - 1, by omega⟩
              exact Or.inr (Or.inl (.close ht rest'))
          · -- a space or a round bracket: the rest of the line is skipped
            obtain ⟨hpos, hzero, -, htwo⟩ := readString_stop ht hd (rest ++ NL :: R)
            obtain ⟨-, hcleanup⟩ :=
              keysLoop_after_key maxKeys room stored (t ++ d :: (rest ++ NL :: R))
            have hbad : (readString MAX_STRING_SIZE (t ++ d :: (rest ++ NL :: R))).value < 0 ∨
                (readString MAX_STRING_SIZE (t ++ d :: (rest ++ NL :: R))).value = 1 := by
              have hrange := readString_value_range MAX_STRING_SIZE (t ++ d :: (rest ++ NL :: R))
              have hne₀ := mt hzero hcomma
              have hne₂ := mt htwo hrbrack
              omega
            rw [hcleanup hbad, hpos]
            exact Or.inr (Or.inr (cleanup_line hrest R))
      · -- the line stops inside the key
        exact Or.inl (.stops ht)

/-! ## Keywords -/

/-- The keyword is what the first bytes are compared with. -/
theorem keyword_read {keyword : List Byte} (hnul : (0 : Byte) ∉ keyword) (s : Stream) :
    ((readBytes s (keyword.length - 1)).1.length ≠ keyword.length - 1 ∨
        strncmp (keyword.take 1 ++ (readBytes s (keyword.length - 1)).1) keyword keyword.length ≠ 0)
      ↔ s.take (keyword.length - 1) ≠ keyword.drop 1 := by
  show ((s.take (keyword.length - 1)).length ≠ keyword.length - 1 ∨
    strncmp (keyword.take 1 ++ s.take (keyword.length - 1)) keyword keyword.length ≠ 0) ↔ _
  generalize s.take (keyword.length - 1) = buf
  cases keyword with
  | nil => cases buf <;> simp [strncmp]
  | cons b keyword =>
      simp only [List.length_cons, Nat.add_sub_cancel, List.take_succ_cons, List.take_zero,
        List.drop_succ_cons, List.drop_zero, List.singleton_append, ne_eq]
      have hcmp := strncmp_eq_zero_iff hnul (b :: buf)
      simp only [List.length_cons, List.take_succ_cons, List.cons.injEq, true_and] at hcmp
      rw [hcmp]
      constructor
      · rintro h rfl
        simp at h
      · intro h
        by_cases hlen : buf.length = keyword.length
        · rw [← hlen, List.take_length]
          exact Or.inr h
        · exact Or.inl hlen

theorem keywordSpace_eq {keyword : List Byte} (hnul : (0 : Byte) ∉ keyword) (command : Command)
    (s : Stream) :
    keywordSpace keyword command s
      = if s.take (keyword.length - 1) = keyword.drop 1 then (command, s.drop (keyword.length - 1))
        else (.cmdInvalid, cleanup (s.drop (keyword.length - 1))) := by
  unfold keywordSpace
  simp only [keyword_read hnul, ne_eq, ite_not]
  rfl

theorem keywordLine_eq {keyword : List Byte} (hnul : (0 : Byte) ∉ keyword) (command : Command)
    (s : Stream) :
    keywordLine keyword command s
      = if s.take (keyword.length - 1) = keyword.drop 1 then
          match s.drop (keyword.length - 1) with
          | [] => (command, [])
          | ch :: s => if ch ≠ NL then (.cmdInvalid, cleanup s) else (command, s)
        else (.cmdInvalid, cleanup (s.drop (keyword.length - 1))) := by
  unfold keywordLine
  simp only [keyword_read hnul, ne_eq, ite_not]
  rfl

/-- Two reads, one behind the other, give what one read of all the bytes gives. -/
theorem readBytes_twice (s : Stream) (m n : Nat) :
    (readBytes s m).1 ++ (readBytes (readBytes s m).2 n).1 = s.take (m + n) ∧
      (readBytes (readBytes s m).2 n).2 = s.drop (m + n) := by
  show s.take m ++ (s.drop m).take n = s.take (m + n) ∧ (s.drop m).drop n = s.drop (m + n)
  rw [List.take_add, List.drop_drop]
  exact ⟨rfl, rfl⟩

/-- The second falls short when the one read does. -/
theorem readBytes_twice_short (s : Stream) (m : Nat) {n : Nat} (hn : 0 < n) :
    (readBytes (readBytes s m).2 n).1.length ≠ n ↔ (s.take (m + n)).length ≠ m + n := by
  show ((s.drop m).take n).length ≠ n ↔ _
  simp only [List.length_take, List.length_drop]
  omega

theorem keywordW_eq (s : Stream) :
    keywordW s
      = if s.take 4 = (ascii "WAIT ").drop 1 then (.cmdWait, s.drop 4)
        else if s.take 5 = (ascii "WRITE ").drop 1 then (.cmdWrite, s.drop 5)
        else (.cmdInvalid, cleanup (s.drop 5)) := by
  have hwait : ((readBytes s 4).1.length ≠ 4 ∨
      strncmp (ascii "W" ++ (readBytes s 4).1) (ascii "WAIT ") 5 ≠ 0)
      ↔ s.take 4 ≠ (ascii "WAIT ").drop 1 := @keyword_read (ascii "WAIT ") (by decide) s
  have hwrite : ((s.take 5).length ≠ 5 ∨ strncmp (ascii "W" ++ s.take 5) (ascii "WRITE ") 6 ≠ 0)
      ↔ s.take 5 ≠ (ascii "WRITE ").drop 1 := @keyword_read (ascii "WRITE ") (by decide) s
  -- the fifth byte is read on its own
  have hbuf : (readBytes s 4).1 ++ (readBytes (readBytes s 4).2 1).1 = s.take 5 :=
    (readBytes_twice s 4 1).1
  have hdrop : (readBytes (readBytes s 4).2 1).2 = s.drop 5 := (readBytes_twice s 4 1).2
  have hlen : (readBytes (readBytes s 4).2 1).1.length ≠ 1 ↔ (s.take 5).length ≠ 5 :=
    readBytes_twice_short s 4 Nat.one_pos
  unfold keywordW
  simp only [hwait, hbuf, hlen, hwrite, hdrop, ne_eq, ite_not]
  rfl

/-- How a line lies against a keyword whose first byte it has: it ends before the keyword does, or goes
    on behind it, or differs from it. -/
theorem keyword_line {keyword L : List Byte} (hkeyword : NL ∉ keyword) (hL : NL ∉ L) (R : Stream) :
    (L.length < keyword.length - 1 ∧ (L ++ NL :: R).take (keyword.length - 1) ≠ keyword.drop 1 ∧
        Beyond R (cleanup ((L ++ NL :: R).drop (keyword.length - 1)))) ∨
      (∃ P, L = keyword.drop 1 ++ P ∧ (L ++ NL :: R).take (keyword.length - 1) = keyword.drop 1 ∧
        (L ++ NL :: R).drop (keyword.length - 1) = P ++ NL :: R) ∨
      (keyword.length - 1 ≤ L.length ∧
        (L ++ NL :: R).take (keyword.length - 1) ≠ keyword.drop 1 ∧
        cleanup ((L ++ NL :: R).drop (keyword.length - 1)) = R) := by
  by_cases hshort : L.length < keyword.length - 1
  · -- the newline is among the bytes read
    obtain ⟨m, hm⟩ : ∃ m, keyword.length - 1 = L.length + (m + 1) :=
      ⟨keyword.length - 1 - L.length - 1, by omega⟩
    refine Or.inl ⟨hshort, fun heq => ?_, ?_⟩
    · have hmem : NL ∈ (L ++ NL :: R).take (keyword.length - 1) := by
        rw [hm, List.take_length_add_append, List.take_succ_cons]
        simp
      rw [heq] at hmem
      exact hkeyword (List.mem_of_mem_drop hmem)
    · rw [hm, List.drop_length_add_append, List.drop_succ_cons]
      exact beyond_cleanup (List.drop_suffix m R)
  · have hlen : keyword.length - 1 ≤ L.length := Nat.le_of_not_lt hshort
    rw [List.take_append_of_le_length hlen, List.drop_append_of_le_length hlen]
    by_cases hmatch : L.take (keyword.length - 1) = keyword.drop 1
    · refine Or.inr (Or.inl ⟨L.drop (keyword.length - 1), ?_, hmatch, rfl⟩)
      rw [← hmatch, List.take_append_drop]
    · have hrest : NL ∉ L.drop (keyword.length - 1) := fun hmem => hL (List.mem_of_mem_drop hmem)
      exact Or.inr (Or.inr ⟨hlen, hmatch, cleanup_line hrest R⟩)

/-! ## Arguments -/

theorem parseWrite_cases {P : List Byte} (hP : NL ∉ P) (R : Stream) :
    P = [] ∨ P = [LBRACK] ∨
      (∃ P', P = LBRACK :: LPAREN :: P' ∧
        (PairsOverrun MAX_WRITE_SIZE P' ∨ PairsNul MAX_WRITE_SIZE P')) ∨
      (parseWrite MAX_WRITE_SIZE (P ++ NL :: R)).rest = R := by
  cases P with
  | nil => exact Or.inl rfl
  | cons b P =>
      rw [List.mem_cons, not_or] at hP
      by_cases hb : b = LBRACK
      · subst hb
        cases P with
        | nil => exact Or.inr (Or.inl rfl)
        | cons b P =>
            have hP' := hP.2
            rw [List.mem_cons, not_or] at hP'
            by_cases hb : b = LPAREN
            · subst hb
              right; right
              rw [List.cons_append, List.cons_append, parseWrite_open]
              rcases @pairsLoop_cases _ P hP'.2 _ [] (Nat.zero_add MAX_WRITE_SIZE) R with h | h | h
              · exact Or.inl ⟨P, rfl, Or.inl h⟩
              · exact Or.inl ⟨P, rfl, Or.inr h⟩
              · exact Or.inr h
            · -- no round bracket behind the square one: the rest of the line is skipped
              refine Or.inr (Or.inr (Or.inr ?_))
              rw [List.cons_append, List.cons_append, parseWrite_noPair hb]
              exact cleanup_line hP'.2 R
      · -- no square bracket behind the keyword
        refine Or.inr (Or.inr (Or.inr ?_))
        rw [List.cons_append, parseWrite_noBracket hb]
        exact cleanup_line hP.2 R

theorem parseReadDelete_cases {P : List Byte} (hP : NL ∉ P) (R : Stream) :
    P = [] ∨
      (∃ P', P = LBRACK :: P' ∧ (KeysOverrun MAX_WRITE_SIZE P' ∨ KeysNul MAX_WRITE_SIZE P')) ∨
      (parseReadDelete MAX_WRITE_SIZE MAX_STRING_SIZE (P ++ NL :: R)).rest = R := by
  cases P with
  | nil => exact Or.inl rfl
  | cons b P =>
      rw [List.mem_cons, not_or] at hP
      right
      by_cases hb : b = LBRACK
      · subst hb
        rw [List.cons_append, parseReadDelete_open]
        rcases @keysLoop_cases _ P hP.2 _ [] (Nat.zero_add MAX_WRITE_SIZE) R with h | h | h
        · exact Or.inl ⟨P, rfl, Or.inl h⟩
        · exact Or.inl ⟨P, rfl, Or.inr h⟩
        · exact Or.inr h
      · right
        rw [List.cons_append, parseReadDelete_noBracket hb]
        exact cleanup_line hP.2 R

theorem parseWait_outOfRange {ds : List Byte} (hds : ∀ b ∈ ds, isDigit b = true) {c : Byte}
    (hc : isDigit c = false) (hbig : UINT_MAX < digitsValue ds) (mem mem' : List Byte) (s : Stream) :
    (parseWait false mem mem' (ds ++ c :: s)).rest = cleanup s := by
  rw [parseWait, readUint_digits hds hc, if_pos hbig]
  rfl

theorem parseWait_inRange {ds : List Byte} (hds : ∀ b ∈ ds, isDigit b = true) {c : Byte}
    (hc : isDigit c = false) (hrange : digitsValue ds ≤ UINT_MAX) (mem mem' : List Byte)
    (s : Stream) :
    (parseWait false mem mem' (ds ++ c :: s)).rest
      = if c = NL ∨ c = 0 then s else cleanup s := by
  rw [parseWait, readUint_digits hds hc, if_neg (Nat.not_lt.mpr hrange)]
  by_cases hsp : c = SP
  · subst hsp
    rfl
  · by_cases hend : c = NL ∨ c = 0
    · simp only [hsp, hend, if_true, if_false, ne_eq, not_true_eq_false]
    · simp only [hsp, hend, if_false, ne_eq, not_true_eq_false]

theorem parseWait_cases {P : List Byte} (hP : NL ∉ P) (mem mem' : List Byte) (R : Stream) :
    ((∀ b ∈ P, isDigit b = true) ∧ UINT_MAX < digitsValue P) ∨
      (∃ ds rest, P = ds ++ 0 :: rest ∧ (∀ b ∈ ds, isDigit b = true) ∧
        digitsValue ds ≤ UINT_MAX) ∨
      (parseWait false mem mem' (P ++ NL :: R)).rest = R := by
  obtain ⟨ds, rest, rfl, hds, hstop⟩ := digits_cases P
  have hnl : isDigit NL = false := by decide
  -- what ends the digits: the newline of the line, or a byte of it
  cases rest with
  | nil =>
      rw [List.append_nil]
      by_cases hbig : UINT_MAX < digitsValue ds
      · exact Or.inl ⟨hds, hbig⟩
      · rw [parseWait_inRange hds hnl (Nat.le_of_not_lt hbig), if_pos (Or.inl rfl)]
        exact Or.inr (Or.inr rfl)
  | cons c rest =>
      have hc := hstop c rest rfl
      have hrest : NL ∉ rest := fun hmem => hP (by simp [hmem])
      have hcnl : c ≠ NL := by
        rintro rfl
        exact hP (by simp)
      rw [List.append_assoc, List.cons_append]
      by_cases hbig : UINT_MAX < digitsValue ds
      · rw [parseWait_outOfRange hds hc hbig]
        exact Or.inr (Or.inr (cleanup_line hrest R))
      · have hrange := Nat.le_of_not_lt hbig
        by_cases hzero : c = 0
        · subst hzero
          exact Or.inr (Or.inl ⟨ds, rest, rfl, hds, hrange⟩)
        · rw [parseWait_inRange hds hc hrange, if_neg (by simp [hcnl, hzero])]
          exact Or.inr (Or.inr (cleanup_line hrest R))

/-! ## Rounds -/

/-- The position after the parser that `get_next` selects. -/
def argsRest (mem : List Byte) : Command × Stream → Stream
  | (.cmdWrite, s) => (parseWrite MAX_WRITE_SIZE s).rest
  | (.cmdRead, s) => (parseReadDelete MAX_WRITE_SIZE MAX_STRING_SIZE s).rest
  | (.cmdDelete, s) => (parseReadDelete MAX_WRITE_SIZE MAX_STRING_SIZE s).rest
  | (.cmdWait, s) => (parseWait false mem [] s).rest
  | (_, s) => s

theorem keywordSpace_ne {command other : Command} (hc : command ≠ other)
    (hinvalid : .cmdInvalid ≠ other) (keyword : List Byte) (s : Stream) :
    (keywordSpace keyword command s).1 ≠ other := by
  unfold keywordSpace
  simp only
  split
  · exact hinvalid
  · exact hc

theorem keywordLine_ne {command other : Command} (hc : command ≠ other)
    (hinvalid : .cmdInvalid ≠ other) (keyword : List Byte) (s : Stream) :
    (keywordLine keyword command s).1 ≠ other := by
  unfold keywordLine
  simp only
  split
  · exact hinvalid
  · split
    · exact hc
    · split
      · exact hinvalid
      · exact hc

theorem keywordW_ne_eoc (s : Stream) : (keywordW s).1 ≠ .eoc := by
  unfold keywordW
  simp only
  split_ifs <;> simp

/-- Only the end of the file gives `EOC`. -/
theorem getNext_ne_eoc (ch : Byte) (s : Stream) : (getNext (ch :: s)).1 ≠ .eoc := by
  rw [getNext]
  split_ifs
  · exact keywordW_ne_eoc s
  · exact keywordSpace_ne (by simp) (by simp) _ s
  · exact keywordSpace_ne (by simp) (by simp) _ s
  · exact keywordLine_ne (by simp) (by simp) _ s
  · exact keywordLine_ne (by simp) (by simp) _ s
  · exact keywordLine_ne (by simp) (by simp) _ s
  · simp
  · simp
  · simp

/-- A round on a text that has not ended leaves that position. -/
theorem jobRound_rest (mem : List Byte) (ch : Byte) (s : Stream) :
    (jobRound mem (ch :: s)).map Prod.snd = some (argsRest mem (getNext (ch :: s))) := by
  have hne := getNext_ne_eoc ch s
  unfold jobRound
  generalize getNext (ch :: s) = r at hne ⊢
  obtain ⟨command, s'⟩ := r
  cases command with
  | eoc => exact absurd rfl hne
  | _ => rfl

/-- A keyword cut short by the end of its line. -/
theorem keyword_cutShort {keyword L : List Byte} (hkeyword : NL ∉ keyword) (hL : NL ∉ L)
    (hshort : L.length < keyword.length - 1) (R : Stream) :
    (L ++ NL :: R).take (keyword.length - 1) ≠ keyword.drop 1 ∧
      Beyond R (cleanup ((L ++ NL :: R).drop (keyword.length - 1))) := by
  rcases keyword_line hkeyword hL R with ⟨-, hne, hbeyond⟩ | ⟨P, rfl, -, -⟩ | ⟨hlen, -, -⟩
  · exact ⟨hne, hbeyond⟩
  · rw [List.length_append, List.length_drop] at hshort
    omega
  · omega

theorem keywordSpace_cutShort {keyword L : List Byte} (hkeyword : NL ∉ keyword)
    (hnul : (0 : Byte) ∉ keyword) (hL : NL ∉ L) (hshort : L.length < keyword.length - 1)
    (command : Command) (mem : List Byte) (R : Stream) :
    Beyond R (argsRest mem (keywordSpace keyword command (L ++ NL :: R))) := by
  obtain ⟨hne, hbeyond⟩ := keyword_cutShort hkeyword hL hshort R
  rw [keywordSpace_eq hnul, if_neg hne]
  exact hbeyond

theorem keywordLine_cutShort {keyword L : List Byte} (hkeyword : NL ∉ keyword)
    (hnul : (0 : Byte) ∉ keyword) (hL : NL ∉ L) (hshort : L.length < keyword.length - 1)
    (command : Command) (mem : List Byte) (R : Stream) :
    Beyond R (argsRest mem (keywordLine keyword command (L ++ NL :: R))) := by
  obtain ⟨hne, hbeyond⟩ := keyword_cutShort hkeyword hL hshort R
  rw [keywordLine_eq hnul, if_neg hne]
  exact hbeyond

/-- A line that is not a `WAIT` is not taken for one. -/
theorem take_ne_wait {L : List Byte} (hL : NL ∉ L) (hwait : ¬ ascii "WAIT " <+: 87 :: L)
    (R : Stream) : (L ++ NL :: R).take 4 ≠ (ascii "WAIT ").drop 1 := by
  rcases @keyword_line (ascii "WAIT ") L (by decide) hL R with ⟨-, h, -⟩ | ⟨P, rfl, -, -⟩ | ⟨-, h, -⟩
  · exact h
  · exact absurd ⟨P, rfl⟩ hwait
  · exact h

/-- `W` reads for `WAIT` first: a line with fewer than five bytes after it is cut short either way. -/
theorem keywordW_cutShort {L : List Byte} (hL : NL ∉ L) (hshort : L.length < 5)
    (hwait : ¬ ascii "WAIT " <+: 87 :: L) (mem : List Byte) (R : Stream) :
    Beyond R (argsRest mem (keywordW (L ++ NL :: R))) := by
  obtain ⟨hne, hbeyond⟩ := @keyword_cutShort (ascii "WRITE ") L (by decide) hL hshort R
  have hwrite : (L ++ NL :: R).take 5 ≠ (ascii "WRITE ").drop 1 := hne
  rw [keywordW_eq, if_neg (take_ne_wait hL hwait R), if_neg hwrite]
  exact hbeyond

theorem cutShort_beyond {keyword L : List Byte} (hkeyword : keyword ∈ keywords)
    (hfirst : L.head? = keyword.head?) (hshort : L.length < keyword.length)
    (hwait : ¬ ascii "WAIT " <+: L) (hL : NL ∉ L) (mem : List Byte) (R : Stream) :
    Beyond R (argsRest mem (getNext (L ++ NL :: R))) := by
  cases L with
  | nil =>
      have hne : keyword ≠ [] := by
        rintro rfl
        simp at hshort
      exact absurd (List.head?_eq_none_iff.mp hfirst.symm) hne
  | cons ch L =>
      have hL' : NL ∉ L := fun hmem => hL (List.mem_cons_of_mem ch hmem)
      have hlen : L.length < keyword.length - 1 := by
        rw [List.length_cons] at hshort
        omega
      simp only [keywords, List.mem_cons, List.not_mem_nil, or_false] at hkeyword
      rcases hkeyword with rfl | rfl | rfl | rfl | rfl | rfl <;>
        obtain rfl := Option.some.inj hfirst
      · exact keywordW_cutShort hL' hlen hwait mem R
      · exact keywordSpace_cutShort (by decide) (by decide) hL' hlen .cmdRead mem R
      · exact keywordSpace_cutShort (by decide) (by decide) hL' hlen .cmdDelete mem R
      · exact keywordLine_cutShort (by decide) (by decide) hL' hlen .cmdShow mem R
      · exact keywordLine_cutShort (by decide) (by decide) hL' hlen .cmdBackup mem R
      · exact keywordLine_cutShort (by decide) (by decide) hL' hlen .cmdHelp mem R

/-- A `WRITE` up to the bracket of its first pair. -/
theorem getNext_writePair (mem : List Byte) (s : Stream) :
    argsRest mem (getNext (ascii "WRITE [(" ++ s))
      = (pairsLoop MAX_WRITE_SIZE MAX_WRITE_SIZE [] s).rest := by
  rw [← parseWrite_open]
  rfl

/-- Lists: the rounds of the two commands whose argument is a list of keys. -/
theorem getNext_listKeyword {keyword : List Byte} (h : keyword ∈ listKeywords) (mem : List Byte)
    (s : Stream) :
    argsRest mem (getNext (keyword ++ s))
      = (parseReadDelete MAX_WRITE_SIZE MAX_STRING_SIZE s).rest := by
  simp only [listKeywords, List.mem_cons, List.not_mem_nil, or_false] at h
  rcases h with rfl | rfl
  · rfl
  · rfl

/-- **A line that overruns** leaves the position beyond the start of the next line. -/
theorem overrun_beyond {L : List Byte} (h : Overrun L) (hL : NL ∉ L) (mem : List Byte) (R : Stream) :
    Beyond R (argsRest mem (getNext (L ++ NL :: R))) := by
  cases h with
  | cutShort hkeyword hfirst hshort hwait =>
      exact cutShort_beyond hkeyword hfirst hshort hwait hL mem R
  | @outOfRange ds hds hbig =>
      show Beyond R (parseWait false mem [] (ds ++ NL :: R)).rest
      rw [parseWait_outOfRange hds (by decide) hbig]
      exact beyond_cleanup (List.suffix_refl R)
  | noList hkeyword =>
      rcases List.mem_cons.mp hkeyword with rfl | hlist
      · exact beyond_cleanup (List.suffix_refl R)
      · rw [getNext_listKeyword hlist]
        exact beyond_cleanup (List.suffix_refl R)
  | noPair => exact beyond_cleanup (List.suffix_refl R)
  | @pairs P h =>
      have hP : NL ∉ P := fun hmem => hL (List.mem_append_right _ hmem)
      rw [List.append_assoc, getNext_writePair]
      exact pairsLoop_overrun h hP MAX_WRITE_SIZE [] R
  | @keys keyword P hkeyword h =>
      rw [List.append_assoc, getNext_listKeyword hkeyword, List.cons_append, parseReadDelete_open]
      exact keysLoop_overrun h MAX_WRITE_SIZE [] R

/-- **A line that stops at a NUL** leaves part of it to be read. -/
theorem nulStop_short {L : List Byte} (h : NulStop L) (mem : List Byte) (R : Stream) :
    R.length < (argsRest mem (getNext (L ++ NL :: R))).length := by
  cases h with
  | @wait ds hds hrange rest =>
      have htext : ascii "WAIT " ++ (ds ++ 0 :: rest) ++ NL :: R
          = ascii "WAIT " ++ (ds ++ 0 :: (rest ++ NL :: R)) := by simp
      rw [htext]
      show R.length < (parseWait false mem [] (ds ++ 0 :: (rest ++ NL :: R))).rest.length
      rw [parseWait_inRange hds (by decide) hrange, if_pos (Or.inr rfl), List.length_append,
        List.length_cons]
      omega
  | pairs h =>
      rw [List.append_assoc, getNext_writePair]
      exact @pairsLoop_nul _ _ h _ [] (Nat.zero_add MAX_WRITE_SIZE) R
  | @keys keyword P hkeyword h =>
      rw [List.append_assoc, getNext_listKeyword hkeyword, List.cons_append, parseReadDelete_open]
      exact @keysLoop_nul _ _ h _ [] (Nat.zero_add MAX_WRITE_SIZE) R

/-! ## Every other line -/

theorem not_wait_of_first {ch : Byte} (h : ch ≠ 87) (L : List Byte) :
    ¬ ascii "WAIT " <+: ch :: L := by
  rintro ⟨P, heq⟩
  exact h (List.cons.inj heq).1.symm

theorem keywordW_cases {L : List Byte} (hL : NL ∉ L) (mem : List Byte) (R : Stream) :
    Overrun (87 :: L) ∨ NulStop (87 :: L) ∨ argsRest mem (keywordW (L ++ NL :: R)) = R := by
  by_cases hwait : ascii "WAIT " <+: 87 :: L
  · obtain ⟨P, heq⟩ := hwait
    obtain rfl : L = (ascii "WAIT ").drop 1 ++ P := (List.cons.inj heq).2.symm
    have hP : NL ∉ P := fun hmem => hL (List.mem_append_right _ hmem)
    rcases parseWait_cases hP mem [] R with ⟨hds, hbig⟩ | ⟨ds, rest, rfl, hds, hrange⟩ | h
    · exact Or.inl (.outOfRange hds hbig)
    · exact Or.inr (Or.inl (.wait hds hrange rest))
    · exact Or.inr (Or.inr h)
  · rw [keywordW_eq, if_neg (take_ne_wait hL hwait R)]
    rcases @keyword_line (ascii "WRITE ") L (by decide) hL R with
      ⟨hshort, -, -⟩ | ⟨P, rfl, -, -⟩ | ⟨-, hne, hskip⟩
    · exact Or.inl (@Overrun.cutShort (87 :: L) (ascii "WRITE ") (by simp [keywords]) rfl
        (Nat.add_lt_of_lt_sub hshort) hwait)
    · have hP : NL ∉ P := fun hmem => hL (List.mem_append_right _ hmem)
      show _ ∨ _ ∨ (parseWrite MAX_WRITE_SIZE (P ++ NL :: R)).rest = R
      rcases parseWrite_cases hP R with rfl | rfl | ⟨P', rfl, h | h⟩ | h
      · exact Or.inl (.noList List.mem_cons_self)
      · exact Or.inl .noPair
      · exact Or.inl (.pairs h)
      · exact Or.inr (Or.inl (.pairs h))
      · exact Or.inr (Or.inr h)
    · have hne' : (L ++ NL :: R).take 5 ≠ (ascii "WRITE ").drop 1 := hne
      rw [if_neg hne']
      exact Or.inr (Or.inr hskip)

/-- The two commands whose argument is a list of keys. -/
theorem keywordSpace_cases {b : Byte} {keyword : List Byte} (hb : b ≠ 87)
    (hkeyword : b :: keyword ∈ listKeywords) (hkeyword' : b :: keyword ∈ keywords)
    (hline : NL ∉ b :: keyword) (hnul : (0 : Byte) ∉ b :: keyword) {command : Command}
    {mem : List Byte}
    (hcommand : ∀ s, argsRest mem (command, s)
      = (parseReadDelete MAX_WRITE_SIZE MAX_STRING_SIZE s).rest)
    {L : List Byte} (hL : NL ∉ L) (R : Stream) :
    Overrun (b :: L) ∨ NulStop (b :: L) ∨
      argsRest mem (keywordSpace (b :: keyword) command (L ++ NL :: R)) = R := by
  rw [keywordSpace_eq hnul]
  rcases keyword_line hline hL R with
    ⟨hshort, -, -⟩ | ⟨P, rfl, htake, hdrop⟩ | ⟨-, hne, hskip⟩
  · exact Or.inl (.cutShort hkeyword' rfl (Nat.succ_lt_succ hshort) (not_wait_of_first hb L))
  · have hP : NL ∉ P := fun hmem => hL (List.mem_append_right _ hmem)
    rw [if_pos htake, hdrop, hcommand]
    rcases parseReadDelete_cases hP R with rfl | ⟨P', rfl, h | h⟩ | h
    · rw [List.append_nil]
      exact Or.inl (.noList (List.mem_cons_of_mem _ hkeyword))
    · exact Or.inl (.keys hkeyword h)
    · exact Or.inr (Or.inl (.keys hkeyword h))
    · exact Or.inr (Or.inr h)
  · rw [if_neg hne]
    exact Or.inr (Or.inr hskip)

/-- The three commands without arguments. -/
theorem keywordLine_cases {b : Byte} {keyword : List Byte} (hb : b ≠ 87)
    (hkeyword : b :: keyword ∈ keywords) (hline : NL ∉ b :: keyword)
    (hnul : (0 : Byte) ∉ b :: keyword) {command : Command} {mem : List Byte}
    (hcommand : ∀ s, argsRest mem (command, s) = s) {L : List Byte} (hL : NL ∉ L) (R : Stream) :
    Overrun (b :: L) ∨ argsRest mem (keywordLine (b :: keyword) command (L ++ NL :: R)) = R := by
  rw [keywordLine_eq hnul]
  rcases keyword_line hline hL R with
    ⟨hshort, -, -⟩ | ⟨P, rfl, htake, hdrop⟩ | ⟨-, hne, hskip⟩
  · exact Or.inl (.cutShort hkeyword rfl (Nat.succ_lt_succ hshort) (not_wait_of_first hb L))
  · have hP : NL ∉ P := fun hmem => hL (List.mem_append_right _ hmem)
    rw [if_pos htake, hdrop]
    cases P with
    | nil => exact Or.inr (hcommand R)
    | cons c P =>
        rw [List.mem_cons, not_or] at hP
        right
        simp only [List.cons_append, if_pos (Ne.symm hP.1)]
        exact cleanup_line hP.2 R
  · rw [if_neg hne]
    exact Or.inr hskip

/-- **Every line** overruns, stops at a NUL, or leaves the position at the start of the next line. -/
theorem line_cases {L : List Byte} (hL : NL ∉ L) (mem : List Byte) (R : Stream) :
    Overrun L ∨ NulStop L ∨ argsRest mem (getNext (L ++ NL :: R)) = R := by
  cases L with
  | nil => exact Or.inr (Or.inr rfl)
  | cons ch L =>
      rw [List.mem_cons, not_or] at hL
      obtain ⟨hch, hL⟩ := hL
      rw [List.cons_append, getNext]
      split_ifs with hW hR hD hS hB hH hhash hnl
      · subst hW
        exact keywordW_cases hL mem R
      · subst hR
        exact keywordSpace_cases (by decide) (by decide) (by decide) (by decide) (by decide)
          (fun _ => rfl) hL R
      · subst hD
        exact keywordSpace_cases (by decide) (by decide) (by decide) (by decide) (by decide)
          (fun _ => rfl) hL R
      · subst hS
        exact Or.imp_right Or.inr
          (keywordLine_cases (by decide) (by decide) (by decide) (by decide) (fun _ => rfl) hL R)
      · subst hB
        exact Or.imp_right Or.inr
          (keywordLine_cases (by decide) (by decide) (by decide) (by decide) (fun _ => rfl) hL R)
      · subst hH
        exact Or.imp_right Or.inr
          (keywordLine_cases (by decide) (by decide) (by decide) (by decide) (fun _ => rfl) hL R)
      · exact Or.inr (Or.inr (cleanup_line hL R))
      · exact absurd hnl.symm hch
      · exact Or.inr (Or.inr (cleanup_line hL R))

/-! ## Numbers that stay inside their buffer -/

/-- A `WAIT` whose number has more than 15 digits: with the byte behind them they leave the 16 bytes of
    `read_uint`. -/
def LongNumber (L : List Byte) : Prop :=
  ∃ P, L = ascii "WAIT " ++ P ∧ 15 < (P.takeWhile isDigit).length

/-- Only the keyword gives a `WAIT`. -/
theorem getNext_wait_iff (s s' : Stream) :
    getNext s = (.cmdWait, s') ↔ s = ascii "WAIT " ++ s' := by
  constructor
  · intro h
    cases s with
    | nil => exact absurd (congrArg Prod.fst h) (by simp [getNext])
    | cons ch s =>
        rw [getNext] at h
        split_ifs at h with hW hR hD hS hB hH
        · subst hW
          rw [keywordW_eq] at h
          split_ifs at h with hwait hwrite
          · have hrest : s.drop 4 = s' := (Prod.mk.inj h).2
            rw [← hrest]
            have htext : s = (ascii "WAIT ").drop 1 ++ s.drop 4 := by
              rw [← hwait, List.take_append_drop]
            exact congrArg (List.cons 87) htext
          · exact absurd (congrArg Prod.fst h) (by simp)
          · exact absurd (congrArg Prod.fst h) (by simp)
        · exact absurd (congrArg Prod.fst h) (keywordSpace_ne (by simp) (by simp) _ s)
        · exact absurd (congrArg Prod.fst h) (keywordSpace_ne (by simp) (by simp) _ s)
        · exact absurd (congrArg Prod.fst h) (keywordLine_ne (by simp) (by simp) _ s)
        · exact absurd (congrArg Prod.fst h) (keywordLine_ne (by simp) (by simp) _ s)
        · exact absurd (congrArg Prod.fst h) (keywordLine_ne (by simp) (by simp) _ s)
        all_goals exact absurd (congrArg Prod.fst h) (by simp)
  · rintro rfl
    rfl

/-- Without a `WAIT` no number is read. -/
theorem jobRoundAt_other {s : Stream} (h : ∀ s', s ≠ ascii "WAIT " ++ s') (buf : List Byte) :
    jobRoundAt buf s = some (jobRound buf s) := by
  unfold jobRoundAt
  split
  · rename_i s' heq
    exact absurd ((getNext_wait_iff s s').mp heq) (h s')
  · rfl

theorem jobRoundAt_wait (buf : List Byte) (s : Stream) :
    jobRoundAt buf (ascii "WAIT " ++ s)
      = (parseWaitAt false buf [] s).map (fun p =>
          some (if p.ret = -1 then .invalid else .wait (p.delay.getD 0), p.rest)) := rfl

/-- **The round with the buffer** is the round without it, as long as the number stays inside. -/
theorem jobRoundAt_inside {buf : List Byte} {s : Stream} (h : RoundInside buf s) :
    jobRoundAt buf s = some (jobRound buf s) := by
  by_cases hwait : ∃ s', s = ascii "WAIT " ++ s'
  · obtain ⟨s', rfl⟩ := hwait
    rw [jobRoundAt_wait, parseWaitAt_inside (h s' rfl)]
    rfl
  · exact jobRoundAt_other (not_exists.mp hwait) buf

theorem jobRoundAt_outside {buf : List Byte} {s : Stream} (h : ¬ RoundInside buf s) :
    jobRoundAt buf s = none := by
  obtain ⟨s', hs'⟩ := not_forall.mp h
  obtain ⟨rfl, hout⟩ := Classical.not_imp.mp hs'
  rw [jobRoundAt_wait, parseWaitAt_outside hout]
  rfl

/-- On a line of its own a number stays inside of the 16 bytes when it has at most 15 digits. -/
theorem numberInside_line {buf : List Byte} (hbuf : buf.length = 16) {P : List Byte} (R : Stream) :
    NumberInside buf (P ++ NL :: R) ↔ ¬ 15 < (P.takeWhile isDigit).length := by
  obtain ⟨d, tail, rfl, hd, hstop⟩ := digits_cases P
  have htail : tail.takeWhile isDigit = [] := by
    cases tail with
    | nil => rfl
    | cons c tail => rw [List.takeWhile_cons_of_neg (by simp [hstop c tail rfl])]
  rw [List.takeWhile_append_of_pos hd, htail, List.append_nil, List.append_assoc]
  have hnl : isDigit NL = false := by decide
  cases tail with
  | nil =>
      rw [List.nil_append, numberInside_digits hd hnl, hbuf]
      omega
  | cons c tail =>
      rw [List.cons_append, numberInside_digits hd (hstop c tail rfl), hbuf]
      omega

/-- A keyword at the start of a line ends in that line. -/
theorem line_keyword {keyword L s : List Byte} (hkeyword : NL ∉ keyword) {R : Stream}
    (h : L ++ NL :: R = keyword ++ s) : ∃ P, L = keyword ++ P ∧ s = P ++ NL :: R := by
  rcases List.append_eq_append_iff.mp h with ⟨behind, hbehind, hs⟩ | ⟨P, hP, hs⟩
  · cases behind with
    | nil => exact ⟨[], by simpa using hbehind.symm, hs.symm⟩
    | cons b behind =>
        -- the newline would be part of the keyword
        obtain ⟨rfl, -⟩ := List.cons.inj hs
        exact absurd (hbehind ▸ List.mem_append_right L List.mem_cons_self) hkeyword
  · exact ⟨P, hP, hs⟩

theorem roundInside_line {buf : List Byte} (hbuf : buf.length = 16) (L : List Byte) (R : Stream) :
    RoundInside buf (L ++ NL :: R) ↔ ¬ LongNumber L := by
  constructor
  · rintro h ⟨P, rfl, hlong⟩
    exact (numberInside_line hbuf R).mp (h (P ++ NL :: R) (List.append_assoc _ _ _)) hlong
  · intro h s hs
    obtain ⟨P, rfl, rfl⟩ := line_keyword (by decide) hs
    exact (numberInside_line hbuf R).mpr (fun hlong => h ⟨P, rfl, hlong⟩)

/-! ## Resynchronisation -/

/-- What one round on a line `L` and its newline leaves, on the buffers as lists. -/
theorem jobRound_line_iff (mem : List Byte) {L : List Byte} (hL : NL ∉ L) (R : Stream) :
    (∃ command, jobRound mem (L ++ NL :: R) = some (command, R)) ↔
      ¬ NulStop L ∧ (¬ Overrun L ∨ R = []) := by
  have hround : (jobRound mem (L ++ NL :: R)).map Prod.snd
      = some (argsRest mem (getNext (L ++ NL :: R))) := by
    cases L with
    | nil => exact jobRound_rest mem NL R
    | cons ch L => exact jobRound_rest mem ch (L ++ NL :: R)
  have hiff : (∃ command, jobRound mem (L ++ NL :: R) = some (command, R)) ↔
      argsRest mem (getNext (L ++ NL :: R)) = R := by
    obtain ⟨⟨command, s⟩, hsome, hs⟩ := Option.map_eq_some_iff.mp hround
    simp only at hs
    rw [hsome, ← hs]
    constructor
    · rintro ⟨command', heq⟩
      exact (Prod.mk.inj (Option.some.inj heq)).2
    · rintro rfl
      exact ⟨command, rfl⟩
  rw [hiff]
  exact position_iff (fun h => overrun_beyond h hL mem R) (fun h => nulStop_short h mem R)
    (line_cases hL mem R)

/-- **When the next read starts at the next line.** After one round on a line `L` and its newline the
    position is exactly at the text `R` behind it if and only if the number of a `WAIT` stays inside the
    buffer `buf` of `read_uint`, `L` does not stop at a NUL, and does not overrun, or no text follows that
    it could take with it. -/
theorem jobRound_resync_iff (buf : List Byte) (hbuf : buf.length = 16) (L : List Byte) (hL : NL ∉ L)
    (R : Stream) :
    (∃ command, jobRoundAt buf (L ++ NL :: R) = some (some (command, R))) ↔
      ¬ LongNumber L ∧ ¬ NulStop L ∧ (¬ Overrun L ∨ R = []) := by
  have hnumber := roundInside_line hbuf L R
  rw [← hnumber, ← jobRound_line_iff buf hL R]
  by_cases hinside : RoundInside buf (L ++ NL :: R)
  · rw [jobRoundAt_inside hinside]
    constructor
    · rintro ⟨command, hround⟩
      exact ⟨hinside, command, Option.some.inj hround⟩
    · rintro ⟨-, command, hround⟩
      exact ⟨command, congrArg some hround⟩
  · rw [jobRoundAt_outside hinside]
    constructor
    · rintro ⟨command, hround⟩
      exact absurd hround (by simp)
    · rintro ⟨h, -⟩
      exact absurd h hinside

/-- A `WAIT` with a number that has room: the `SHOW` behind it is read from its start. -/
theorem jobRound_resync_wait :
    (List.replicate 16 (0 : Byte)).length = 16 ∧ NL ∉ ascii "WAIT 12" ∧
      ∃ command, jobRoundAt (List.replicate 16 0) (ascii "WAIT 12" ++ NL :: ascii "SHOW\n")
        = some (some (command, ascii "SHOW\n")) := by
  have hbuf : (List.replicate 16 (0 : Byte)).length = 16 := List.length_replicate
  have hline : NL ∉ ascii "WAIT 12" := by decide
  have hnumber : ¬ LongNumber (ascii "WAIT 12") := by
    rintro ⟨P, heq, hlong⟩
    have htext : ascii "WAIT " ++ ascii "12" = ascii "WAIT " ++ P := heq
    rw [← List.append_cancel_left htext] at hlong
    exact absurd hlong (by decide)
  have hnul : ¬ NulStop (ascii "WAIT 12") := by
    intro h
    have hlt := nulStop_short h [] []
    exact absurd hlt (by decide)
  have hover : ¬ Overrun (ascii "WAIT 12") := by
    intro h
    rcases overrun_beyond h hline [] (ascii "X") with hlt | ⟨hR, -⟩
    · exact absurd hlt (by decide)
    · exact absurd hR (by decide)
  exact ⟨hbuf, hline, (jobRound_resync_iff _ hbuf _ hline (ascii "SHOW\n")).mpr
    ⟨hnumber, hnul, Or.inl hover⟩⟩

/-- **A malformed pair takes the next line with it.** `parse_pair` skips the line of the bad pair, and
    `parse_write` then skips the `SHOW` behind it. -/
theorem malformed_pair_swallows_line :
    ¬ ∃ command, jobRoundAt (List.replicate 16 0) (ascii "WRITE [(a b)]" ++ NL :: ascii "SHOW\n")
      = some (some (command, ascii "SHOW\n")) := by
  have hround : jobRoundAt (List.replicate 16 0) (ascii "WRITE [(a b)]" ++ NL :: ascii "SHOW\n")
      = some (some (.invalid, [])) := by
    decide
  rintro ⟨command, heq⟩
  rw [hround] at heq
  exact absurd (Prod.mk.inj (Option.some.inj (Option.some.inj heq))).2 (by decide)

end Kvs.Server
