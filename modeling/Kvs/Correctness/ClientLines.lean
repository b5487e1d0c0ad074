import Kvs.Client.ParserStores
import Kvs.Correctness.Resync

/-!
# `Correctness.ClientLines` — which lines the client handles as one line

The client's parser has the fault of the server's: a keyword, a list or a number that its line cuts short
has the newline consumed before `cleanup` skips to the next one (`ClientOverrun`). And `parse_delay` does
not look at the byte that ends the number: the rest of the line is read as the next one, as it is behind a
NUL that ends a list (`StopsShort`), and a `DELAY` without a number is taken for one of zero. A number of
more than 15 digits leaves the buffer of `read_uint` (`LongDelay`). These are all (`clientRound_line_iff`).
-/

namespace Kvs.Client

open Server (MAX_STRING_SIZE UINT_MAX Beyond IsToken isPlain isDigit digitsValue)

/-! ## The lines that break -/

/-- The keywords, each read at one stroke or two as soon as its first byte is seen. -/
def keywords : List (List Byte) := [ascii "SUBSCRIBE ", ascii "UNSUBSCRIBE ", ascii "DISCONNECT"]

/-- The keywords of the commands whose argument is a list. -/
def listKeywords : List (List Byte) := [ascii "SUBSCRIBE ", ascii "UNSUBSCRIBE "]

/-- **The lines that take the next line with them.** -/
inductive ClientOverrun : List Byte → Prop where
  | cutShort {L keyword : List Byte} (hkeyword : keyword ∈ keywords) (hfirst : L.head? = keyword.head?)
      (hshort : L.length < keyword.length) (hdelay : ¬ ascii "DELAY " <+: L) : ClientOverrun L
  | outOfRange {ds : List Byte} (hds : ∀ b ∈ ds, isDigit b = true) (hbig : UINT_MAX < digitsValue ds) :
      ClientOverrun (ascii "DELAY " ++ ds)
  | noList {keyword : List Byte} (hkeyword : keyword ∈ listKeywords) : ClientOverrun keyword
  | inKey {keyword k : List Byte} (hkeyword : keyword ∈ listKeywords) (hk : IsToken MAX_STRING_SIZE k) :
      ClientOverrun (keyword ++ LBRACK :: k)

/-- **The lines of which a part is left**, to be read as a line of its own. -/
inductive StopsShort : List Byte → Prop where
  | delay {ds : List Byte} {c : Byte} (hds : ∀ b ∈ ds, isDigit b = true)
      (hrange : digitsValue ds ≤ UINT_MAX) (hc : isDigit c = false) (rest : List Byte) :
      StopsShort (ascii "DELAY " ++ (ds ++ c :: rest))
  | list {keyword k : List Byte} (hkeyword : keyword ∈ listKeywords) (hk : IsToken MAX_STRING_SIZE k)
      (rest : List Byte) : StopsShort (keyword ++ LBRACK :: (k ++ RBRACK :: 0 :: rest))

/-- **The lines that leave the buffer** of `read_uint`: 16 bytes for the digits and the byte behind them. -/
def LongDelay (L : List Byte) : Prop :=
  ∃ P, L = ascii "DELAY " ++ P ∧ 15 < (P.takeWhile isDigit).length

/-- A number and nothing else behind the keyword. -/
def IsDelayLine (L : List Byte) : Prop :=
  ∃ ds, ds ≠ [] ∧ (∀ b ∈ ds, isDigit b = true) ∧ L = ascii "DELAY " ++ ds

/-- A round on the line stays inside of the buffer `buf`, executes one command, a delay only if the line
    is one, and stops right behind the newline of the line. -/
def HandledAsLine (buf L : List Byte) (R : Stream) : Prop :=
  ∃ command, clientRoundAt buf (L ++ NL :: R) = some (some (command, R)) ∧
    ∀ delayMs, command = .delay delayMs → IsDelayLine L

/-! ## Lists -/

theorem parseList_open (s : Stream) :
    parseList 1 MAX_STRING_SIZE (LBRACK :: s) = listLoop 1 MAX_STRING_SIZE 1 2 [] s := rfl

theorem parseList_noBracket {b : Byte} (hb : b ≠ LBRACK) (s : Stream) :
    parseList 1 MAX_STRING_SIZE (b :: s) = rejected [] s := by
  simp [parseList, Server.readTest, hb]

/-- With one row, a key that does not end the list has the line skipped. -/
theorem listLoop_other (s : Stream) (h : (Server.readString MAX_STRING_SIZE s).value ≠ 2) :
    (listLoop 1 MAX_STRING_SIZE 1 2 [] s).rest
      = Server.cleanup (Server.readString MAX_STRING_SIZE s).rest := by
  rw [listLoop, readString_eq]
  split_ifs with hbad
  · rw [rejected_eq]
    rfl
  · have hzero : (Server.readString MAX_STRING_SIZE s).value = 0 := by
      have hrange := Server.readString_value_range MAX_STRING_SIZE s
      omega
    rw [hzero, listLoop, closeList, if_pos ⟨rfl, by decide⟩, rejected_eq]
    rfl

theorem listLoop_rbrack {k : List Byte} (hk : IsToken MAX_STRING_SIZE k) (s : Stream) :
    listLoop 1 MAX_STRING_SIZE 1 2 [] (k ++ RBRACK :: s)
      = closeList 1 2 [CStr.ofBuffer (k ++ [0])] s := by
  rw [listLoop, readString_eq, @Server.readString_token _ k hk RBRACK 2 (by simp)]
  rfl

/-- The end of a list: a NUL right behind it, or the line is handled as one line. -/
theorem closeList_cases {P : List Byte} (hP : NL ∉ P) (key : CStr) (R : Stream) :
    (closeList 1 2 [key] (P ++ NL :: R)).rest = R ∨ ∃ rest, P = 0 :: rest := by
  rw [closeList, if_neg (by simp)]
  rcases Server.readTest_closing hP R with hnul | htest | ⟨s, htest, hs⟩
  · exact Or.inr hnul
  · rw [htest]
    exact Or.inl rfl
  · rw [htest]
    left
    show (rejected _ _).rest = R
    rw [rejected_eq]
    exact hs

theorem parseList_inKey {k : List Byte} (hk : IsToken MAX_STRING_SIZE k) (R : Stream) :
    Beyond R (parseList 1 MAX_STRING_SIZE (LBRACK :: (k ++ NL :: R))).rest := by
  obtain ⟨hsuffix, hlt⟩ := Server.readString_cross hk R
  rw [parseList_open]
  by_cases hlast : (Server.readString MAX_STRING_SIZE (k ++ NL :: R)).value = 2
  · -- the list closes in the next line
    have hbeyond : Beyond R (Server.readString MAX_STRING_SIZE (k ++ NL :: R)).rest :=
      Or.inl (hlt (by rw [hlast]; decide))
    apply hbeyond.mono
    rw [listLoop, readString_eq, if_neg (by rw [hlast]; decide), if_pos hlast]
    exact closeList_suffix _ _ _ _
  · rw [listLoop_other _ hlast]
    exact Server.beyond_cleanup hsuffix

/-- **Lists.** A line is cut short in its list, or the list closes in front of a NUL, or the line is
    handled as one line. -/
theorem parseList_cases {P : List Byte} (hP : NL ∉ P) (R : Stream) :
    P = [] ∨ (∃ k, IsToken MAX_STRING_SIZE k ∧ P = LBRACK :: k) ∨
      (∃ k rest, IsToken MAX_STRING_SIZE k ∧ P = LBRACK :: (k ++ RBRACK :: 0 :: rest)) ∨
      (parseList 1 MAX_STRING_SIZE (P ++ NL :: R)).rest = R := by
  cases P with
  | nil => exact Or.inl rfl
  | cons b P =>
      rw [List.mem_cons, not_or] at hP
      right
      by_cases hb : b = LBRACK
      · subst hb
        rw [List.cons_append, parseList_open]
        rcases Server.token_cases MAX_STRING_SIZE P with
          ⟨t, rest, rfl, ht, hlen⟩ | ⟨t, d, rest, rfl, ht, hd⟩ | ht
        · -- the key is too long
          have hrest : NL ∉ rest := fun hmem => hP.2 (List.mem_append_right t hmem)
          have hread := Server.readString_tooLong ht hlen (rest ++ NL :: R)
          have hother := listLoop_other (t ++ (rest ++ NL :: R)) (by rw [hread]; simp)
          rw [hread] at hother
          rw [List.append_assoc, hother]
          exact Or.inr (Or.inr (Server.cleanup_line hrest R))
        · -- the key ends at `d`
          have hrest : NL ∉ rest :=
            fun hmem => hP.2 (List.mem_append_right t (List.mem_cons_of_mem d hmem))
          rw [List.append_assoc, List.cons_append]
          by_cases hrbrack : d = RBRACK
          · subst hrbrack
            rw [listLoop_rbrack ht]
            rcases closeList_cases hrest (CStr.ofBuffer (t ++ [0])) R with h | ⟨rest', rfl⟩
            · exact Or.inr (Or.inr h)
            · exact Or.inr (Or.inl ⟨t, rest', ht, rfl⟩)
          · obtain ⟨hpos, -, -, htwo⟩ := Server.readString_stop ht hd (rest ++ NL :: R)
            rw [listLoop_other _ (mt htwo hrbrack), hpos]
            exact Or.inr (Or.inr (Server.cleanup_line hrest R))
        · -- the line stops inside the key
          exact Or.inl ⟨P, ht, rfl⟩
      · right; right
        rw [List.cons_append, parseList_noBracket hb, rejected_eq]
        exact Server.cleanup_line hP.2 R

/-! ## Numbers -/

theorem parseDelay_digits {ds : List Byte} (hds : ∀ b ∈ ds, isDigit b = true) {c : Byte}
    (hc : isDigit c = false) (mem : List Byte) (s : Stream) :
    parseDelay mem (ds ++ c :: s)
      = if UINT_MAX < digitsValue ds then ⟨-1, none, cleanup s⟩ else ⟨0, some (digitsValue ds), s⟩ := by
  rw [parseDelay, readUint_eq, Server.readUint_digits hds hc]
  by_cases hbig : digitsValue ds > UINT_MAX
  · rw [if_pos hbig, if_pos hbig]
    rfl
  · rw [if_neg hbig, if_neg hbig]
    rfl

/-- **Numbers.** Only the newline may end the number, unless it is out of range: then nothing else may. -/
theorem parseDelay_cases {P : List Byte} (hP : NL ∉ P) (mem : List Byte) (R : Stream) :
    ((∀ b ∈ P, isDigit b = true) ∧ UINT_MAX < digitsValue P) ∨
      (∃ ds c rest, P = ds ++ c :: rest ∧ (∀ b ∈ ds, isDigit b = true) ∧
        digitsValue ds ≤ UINT_MAX ∧ isDigit c = false) ∨
      ((parseDelay mem (P ++ NL :: R)).rest = R ∧
        ((parseDelay mem (P ++ NL :: R)).ret = 0 → ∀ b ∈ P, isDigit b = true)) := by
  obtain ⟨ds, rest, rfl, hds, hstop⟩ := Server.digits_cases P
  have hnl : isDigit NL = false := by decide
  cases rest with
  | nil =>
      rw [List.append_nil]
      by_cases hbig : UINT_MAX < digitsValue ds
      · exact Or.inl ⟨hds, hbig⟩
      · rw [parseDelay_digits hds hnl, if_neg hbig]
        exact Or.inr (Or.inr ⟨rfl, fun _ => hds⟩)
  | cons c rest =>
      have hc := hstop c rest rfl
      have hrest : NL ∉ rest := fun hmem => hP (by simp [hmem])
      by_cases hbig : UINT_MAX < digitsValue ds
      · rw [List.append_assoc, List.cons_append, parseDelay_digits hds hc, if_pos hbig]
        refine Or.inr (Or.inr ⟨?_, fun h => absurd h (by simp)⟩)
        rw [cleanup_eq]
        exact Server.cleanup_line hrest R
      · exact Or.inr (Or.inl ⟨ds, c, rest, rfl, hds, Nat.le_of_not_lt hbig, hc⟩)

/-! ## Keywords -/

theorem keywordSpace_eq {keyword : List Byte} (hnul : (0 : Byte) ∉ keyword) (command : Command)
    (s : Stream) :
    keywordSpace keyword command s
      = if s.take (keyword.length - 1) = keyword.drop 1 then (command, s.drop (keyword.length - 1))
        else (.cmdInvalid, cleanup (s.drop (keyword.length - 1))) := by
  unfold keywordSpace
  simp only [Server.keyword_read hnul, ne_eq, ite_not]
  rfl

/-- `DISCONNECT` and what may follow it. -/
def closeDisconnect : Stream → Command × Stream
  | [] => (.cmdDisconnect, [])
  | ch :: s => if ch ≠ NL then (.cmdInvalid, cleanup s) else (.cmdDisconnect, s)

theorem keywordD_eq (s : Stream) :
    keywordD s
      = if s.take 5 = (ascii "DELAY ").drop 1 then (.cmdDelay, s.drop 5)
        else if s.take 9 = (ascii "DISCONNECT").drop 1 then closeDisconnect (s.drop 9)
        else (.cmdInvalid, cleanup (s.drop 9)) := by
  have hdelay : ((readBytes s 5).1.length ≠ 5 ∨
      strncmp (ascii "D" ++ (readBytes s 5).1) (ascii "DELAY ") 6 ≠ 0)
      ↔ s.take 5 ≠ (ascii "DELAY ").drop 1 := @Server.keyword_read (ascii "DELAY ") (by decide) s
  have hdisconnect : ((s.take 9).length ≠ 9 ∨
      strncmp (ascii "D" ++ s.take 9) (ascii "DISCONNECT") 10 ≠ 0)
      ↔ s.take 9 ≠ (ascii "DISCONNECT").drop 1 :=
    @Server.keyword_read (ascii "DISCONNECT") (by decide) s
  -- the last four bytes are read on their own
  have hbuf : (readBytes s 5).1 ++ (readBytes (readBytes s 5).2 4).1 = s.take 9 :=
    (Server.readBytes_twice s 5 4).1
  have hdrop : (readBytes (readBytes s 5).2 4).2 = s.drop 9 := (Server.readBytes_twice s 5 4).2
  have hlen : (readBytes (readBytes s 5).2 4).1.length ≠ 4 ↔ (s.take 9).length ≠ 9 :=
    Server.readBytes_twice_short s 5 (Nat.succ_pos 3)
  unfold keywordD closeDisconnect
  simp only [hdelay, hbuf, hlen, hdisconnect, hdrop, ne_eq, ite_not]
  rfl

/-- A line that is not a `DELAY` is not taken for one. -/
theorem take_ne_delay {L : List Byte} (hL : NL ∉ L) (hdelay : ¬ ascii "DELAY " <+: 68 :: L)
    (R : Stream) : (L ++ NL :: R).take 5 ≠ (ascii "DELAY ").drop 1 := by
  rcases @Server.keyword_line (ascii "DELAY ") L (by decide) hL R with
    ⟨-, h, -⟩ | ⟨P, rfl, -, -⟩ | ⟨-, h, -⟩
  · exact h
  · exact absurd ⟨P, rfl⟩ hdelay
  · exact h

theorem keywordSpace_cutShort {keyword L : List Byte} (hkeyword : NL ∉ keyword)
    (hnul : (0 : Byte) ∉ keyword) (hL : NL ∉ L) (hshort : L.length < keyword.length - 1)
    (command : Command) (mem : List Byte) (R : Stream) :
    Beyond R (argsRest mem (keywordSpace keyword command (L ++ NL :: R))) := by
  obtain ⟨hne, hbeyond⟩ := Server.keyword_cutShort hkeyword hL hshort R
  rw [keywordSpace_eq hnul, if_neg hne, cleanup_eq]
  exact hbeyond

/-- `D` reads for `DELAY` first: a line with fewer than nine bytes after it is cut short either way. -/
theorem keywordD_cutShort {L : List Byte} (hL : NL ∉ L) (hshort : L.length < 9)
    (hdelay : ¬ ascii "DELAY " <+: 68 :: L) (mem : List Byte) (R : Stream) :
    Beyond R (argsRest mem (keywordD (L ++ NL :: R))) := by
  obtain ⟨hne, hbeyond⟩ := @Server.keyword_cutShort (ascii "DISCONNECT") L (by decide) hL hshort R
  have hdisconnect : (L ++ NL :: R).take 9 ≠ (ascii "DISCONNECT").drop 1 := hne
  rw [keywordD_eq, if_neg (take_ne_delay hL hdelay R), if_neg hdisconnect, cleanup_eq]
  exact hbeyond

/-- A keyword cut short by the end of its line. -/
theorem cutShort_beyond {keyword L : List Byte} (hkeyword : keyword ∈ keywords)
    (hfirst : L.head? = keyword.head?) (hshort : L.length < keyword.length)
    (hdelay : ¬ ascii "DELAY " <+: L) (hL : NL ∉ L) (mem : List Byte) (R : Stream) :
    Beyond R (argsRest mem (getNext (L ++ NL :: R))) := by
  simp only [keywords, List.mem_cons, List.not_mem_nil, or_false] at hkeyword
  cases L with
  | nil => rcases hkeyword with rfl | rfl | rfl <;> exact absurd hfirst (by decide)
  | cons ch L =>
      have hL' : NL ∉ L := fun hmem => hL (List.mem_cons_of_mem ch hmem)
      have hlen : L.length < keyword.length - 1 := by
        rw [List.length_cons] at hshort
        omega
      rcases hkeyword with rfl | rfl | rfl <;> obtain rfl := Option.some.inj hfirst
      · exact keywordSpace_cutShort (by decide) (by decide) hL' hlen .cmdSubscribe mem R
      · exact keywordSpace_cutShort (by decide) (by decide) hL' hlen .cmdUnsubscribe mem R
      · exact keywordD_cutShort hL' hlen hdelay mem R

/-- The rounds of the two commands whose argument is a list. -/
theorem getNext_listKeyword {keyword : List Byte} (h : keyword ∈ listKeywords) (mem : List Byte)
    (s : Stream) :
    argsRest mem (getNext (keyword ++ s)) = (parseList 1 MAX_STRING_SIZE s).rest := by
  simp only [listKeywords, List.mem_cons, List.not_mem_nil, or_false] at h
  rcases h with rfl | rfl
  · rfl
  · rfl

theorem getNext_delay (s : Stream) : getNext (ascii "DELAY " ++ s) = (.cmdDelay, s) := rfl

/-- **A line that overruns** leaves the position beyond the start of the next line. -/
theorem overrun_beyond {L : List Byte} (h : ClientOverrun L) (hL : NL ∉ L) (mem : List Byte)
    (R : Stream) : Beyond R (argsRest mem (getNext (L ++ NL :: R))) := by
  cases h with
  | cutShort hkeyword hfirst hshort hdelay =>
      exact cutShort_beyond hkeyword hfirst hshort hdelay hL mem R
  | @outOfRange ds hds hbig =>
      rw [List.append_assoc, getNext_delay]
      show Beyond R (parseDelay mem (ds ++ NL :: R)).rest
      rw [parseDelay_digits hds (by decide), if_pos hbig, cleanup_eq]
      exact Server.beyond_cleanup (List.suffix_refl R)
  | noList hkeyword =>
      rw [getNext_listKeyword hkeyword, parseList_noBracket (by decide), rejected_eq]
      exact Server.beyond_cleanup (List.suffix_refl R)
  | @inKey keyword k hkeyword hk =>
      rw [List.append_assoc, getNext_listKeyword hkeyword, List.cons_append]
      exact parseList_inKey hk R

/-- **A line that stops short** leaves part of it to be read. -/
theorem stopsShort_left {L : List Byte} (h : StopsShort L) (mem : List Byte) (R : Stream) :
    R.length < (argsRest mem (getNext (L ++ NL :: R))).length := by
  cases h with
  | @delay ds c hds hrange hc rest =>
      have htext : ascii "DELAY " ++ (ds ++ c :: rest) ++ NL :: R
          = ascii "DELAY " ++ (ds ++ c :: (rest ++ NL :: R)) := by simp
      rw [htext, getNext_delay]
      show R.length < (parseDelay mem (ds ++ c :: (rest ++ NL :: R))).rest.length
      rw [parseDelay_digits hds hc, if_neg (Nat.not_lt.mpr hrange), List.length_append,
        List.length_cons]
      omega
  | @list keyword k hkeyword hk rest =>
      have htext : keyword ++ LBRACK :: (k ++ RBRACK :: 0 :: rest) ++ NL :: R
          = keyword ++ LBRACK :: (k ++ RBRACK :: (0 :: (rest ++ NL :: R))) := by simp
      rw [htext, getNext_listKeyword hkeyword, parseList_open, listLoop_rbrack hk]
      show R.length < (rest ++ NL :: R).length
      rw [List.length_append, List.length_cons]
      omega

/-! ## Every other line -/

/-- The two commands whose argument is a list. -/
theorem keywordSpace_cases {b : Byte} {keyword : List Byte} (hb : b ≠ 68)
    (hkeyword : b :: keyword ∈ listKeywords) (hkeyword' : b :: keyword ∈ keywords)
    (hline : NL ∉ b :: keyword) (hnul : (0 : Byte) ∉ b :: keyword) {command : Command}
    {mem : List Byte}
    (hcommand : ∀ s, argsRest mem (command, s) = (parseList 1 MAX_STRING_SIZE s).rest)
    {L : List Byte} (hL : NL ∉ L) (R : Stream) :
    ClientOverrun (b :: L) ∨ StopsShort (b :: L) ∨
      argsRest mem (keywordSpace (b :: keyword) command (L ++ NL :: R)) = R := by
  rw [keywordSpace_eq hnul]
  rcases Server.keyword_line hline hL R with
    ⟨hshort, -, -⟩ | ⟨P, rfl, htake, hdrop⟩ | ⟨-, hne, hskip⟩
  · have hdelay : ¬ ascii "DELAY " <+: b :: L := by
      rintro ⟨P, heq⟩
      exact hb (List.cons.inj heq).1.symm
    exact Or.inl (.cutShort hkeyword' rfl (Nat.succ_lt_succ hshort) hdelay)
  · have hP : NL ∉ P := fun hmem => hL (List.mem_append_right _ hmem)
    rw [if_pos htake, hdrop, hcommand]
    rcases parseList_cases hP R with rfl | ⟨k, hk, rfl⟩ | ⟨k, rest, hk, rfl⟩ | h
    · rw [List.append_nil]
      exact Or.inl (.noList hkeyword)
    · exact Or.inl (.inKey hkeyword hk)
    · exact Or.inr (Or.inl (.list hkeyword hk rest))
    · exact Or.inr (Or.inr h)
  · rw [if_neg hne, cleanup_eq]
    exact Or.inr (Or.inr hskip)

theorem closeDisconnect_line {P : List Byte} (hP : NL ∉ P) (mem : List Byte) (R : Stream) :
    argsRest mem (closeDisconnect (P ++ NL :: R)) = R := by
  cases P with
  | nil => rfl
  | cons c P =>
      rw [List.mem_cons, not_or] at hP
      rw [List.cons_append, closeDisconnect, if_pos (Ne.symm hP.1), cleanup_eq]
      exact Server.cleanup_line hP.2 R

theorem keywordD_cases {L : List Byte} (hL : NL ∉ L) (mem : List Byte) (R : Stream) :
    ClientOverrun (68 :: L) ∨ StopsShort (68 :: L) ∨ argsRest mem (keywordD (L ++ NL :: R)) = R := by
  by_cases hdelay : ascii "DELAY " <+: 68 :: L
  · obtain ⟨P, heq⟩ := hdelay
    obtain rfl : L = (ascii "DELAY ").drop 1 ++ P := (List.cons.inj heq).2.symm
    have hP : NL ∉ P := fun hmem => hL (List.mem_append_right _ hmem)
    rcases parseDelay_cases hP mem R with
      ⟨hds, hbig⟩ | ⟨ds, c, rest, rfl, hds, hrange, hc⟩ | ⟨h, -⟩
    · exact Or.inl (.outOfRange hds hbig)
    · exact Or.inr (Or.inl (.delay hds hrange hc rest))
    · exact Or.inr (Or.inr h)
  · rw [keywordD_eq, if_neg (take_ne_delay hL hdelay R)]
    rcases @Server.keyword_line (ascii "DISCONNECT") L (by decide) hL R with
      ⟨hshort, -, -⟩ | ⟨P, rfl, -, -⟩ | ⟨-, hne, hskip⟩
    · exact Or.inl (@ClientOverrun.cutShort (68 :: L) (ascii "DISCONNECT") (by simp [keywords]) rfl
        (Nat.add_lt_of_lt_sub hshort) hdelay)
    · have hP : NL ∉ P := fun hmem => hL (List.mem_append_right _ hmem)
      exact Or.inr (Or.inr (closeDisconnect_line hP mem R))
    · have hne' : (L ++ NL :: R).take 9 ≠ (ascii "DISCONNECT").drop 1 := hne
      rw [if_neg hne', cleanup_eq]
      exact Or.inr (Or.inr hskip)

/-- **Every line** overruns, stops short, or leaves the position at the start of the next line. -/
theorem line_cases {L : List Byte} (hL : NL ∉ L) (mem : List Byte) (R : Stream) :
    ClientOverrun L ∨ StopsShort L ∨ argsRest mem (getNext (L ++ NL :: R)) = R := by
  cases L with
  | nil => exact Or.inr (Or.inr rfl)
  | cons ch L =>
      rw [List.mem_cons, not_or] at hL
      obtain ⟨hch, hL⟩ := hL
      rw [List.cons_append, getNext]
      split_ifs with hS hU hD hhash hnl
      · subst hS
        exact keywordSpace_cases (by decide) (by decide) (by decide) (by decide) (by decide)
          (fun _ => rfl) hL R
      · subst hU
        exact keywordSpace_cases (by decide) (by decide) (by decide) (by decide) (by decide)
          (fun _ => rfl) hL R
      · subst hD
        exact keywordD_cases hL mem R
      · rw [cleanup_eq]
        exact Or.inr (Or.inr (Server.cleanup_line hL R))
      · exact absurd hnl.symm hch
      · rw [cleanup_eq]
        exact Or.inr (Or.inr (Server.cleanup_line hL R))

/-! ## Rounds -/

theorem keywordSpace_command {command : Command} (hc : command ≠ .eoc) (keyword : List Byte)
    (s : Stream) : (keywordSpace keyword command s).1 ≠ .eoc := by
  unfold keywordSpace
  simp only
  split
  · simp
  · exact hc

theorem keywordD_command (s : Stream) : (keywordD s).1 ≠ .eoc := by
  rw [keywordD_eq]
  split_ifs
  · simp
  · unfold closeDisconnect
    split
    · simp
    · split_ifs <;> simp
  · simp

/-- Only the end of the input gives `EOC`. -/
theorem getNext_ne_eoc (ch : Byte) (s : Stream) : (getNext (ch :: s)).1 ≠ .eoc := by
  rw [getNext]
  split_ifs
  · exact keywordSpace_command (by simp) _ s
  · exact keywordSpace_command (by simp) _ s
  · exact keywordD_command s
  · simp
  · simp
  · simp

/-- A round on a text that has not ended executes a command. -/
theorem clientRound_goesOn (mem : List Byte) (ch : Byte) (s : Stream) :
    ∃ command, clientRound mem (ch :: s) = some (command, argsRest mem (getNext (ch :: s))) := by
  have hne := getNext_ne_eoc ch s
  unfold clientRound
  generalize getNext (ch :: s) = r at hne ⊢
  obtain ⟨command, s'⟩ := r
  cases command with
  | eoc => exact absurd rfl hne
  | _ => exact ⟨_, rfl⟩

/-! ## Delays -/

theorem keywordSpace_ne_delay {keyword : List Byte} (hnul : (0 : Byte) ∉ keyword) {command : Command}
    (hc : command ≠ .cmdDelay) (s : Stream) : (keywordSpace keyword command s).1 ≠ .cmdDelay := by
  rw [keywordSpace_eq hnul]
  split_ifs
  · exact hc
  · simp

theorem closeDisconnect_ne_delay (s : Stream) : (closeDisconnect s).1 ≠ .cmdDelay := by
  unfold closeDisconnect
  split
  · simp
  · split_ifs <;> simp

/-- Only the keyword gives a `DELAY`. -/
theorem getNext_delay_iff (s s' : Stream) :
    getNext s = (.cmdDelay, s') ↔ s = ascii "DELAY " ++ s' := by
  constructor
  · intro h
    cases s with
    | nil => exact absurd (congrArg Prod.fst h) (by simp [getNext])
    | cons ch s =>
        rw [getNext] at h
        split_ifs at h with hS hU hD
        · exact absurd (congrArg Prod.fst h) (keywordSpace_ne_delay (by decide) (by simp) s)
        · exact absurd (congrArg Prod.fst h) (keywordSpace_ne_delay (by decide) (by simp) s)
        · subst hD
          rw [keywordD_eq] at h
          split_ifs at h with hdelay hdisconnect
          · have hrest : s.drop 5 = s' := (Prod.mk.inj h).2
            have htext : s = (ascii "DELAY ").drop 1 ++ s.drop 5 := by
              rw [← hdelay, List.take_append_drop]
            rw [← hrest]
            exact congrArg (List.cons 68) htext
          · exact absurd (congrArg Prod.fst h) (closeDisconnect_ne_delay _)
          · exact absurd (congrArg Prod.fst h) (by simp)
        all_goals exact absurd (congrArg Prod.fst h) (by simp)
  · rintro rfl
    rfl

/-- A round that executes a delay has read one, or has stopped short. -/
theorem clientRound_delay {mem L : List Byte} (hL : NL ∉ L) {R s : Stream} {delayMs : Nat}
    (h : clientRound mem (L ++ NL :: R) = some (.delay delayMs, s)) :
    StopsShort L ∨ ∃ ds, (∀ b ∈ ds, isDigit b = true) ∧ L = ascii "DELAY " ++ ds := by
  obtain ⟨s', hcommand⟩ : ∃ s', getNext (L ++ NL :: R) = (.cmdDelay, s') := by
    unfold clientRound at h
    split at h
    all_goals rename_i u heq
    · exact absurd (Prod.mk.inj (Option.some.inj h)).1 (by simp)
    · have haccepted := (Prod.mk.inj (Option.some.inj h)).1
      split_ifs at haccepted
    · have haccepted := (Prod.mk.inj (Option.some.inj h)).1
      split_ifs at haccepted
    · exact ⟨u, heq⟩
    · exact absurd (Prod.mk.inj (Option.some.inj h)).1 (by simp)
    · exact absurd (Prod.mk.inj (Option.some.inj h)).1 (by simp)
    · exact absurd h (by simp)
  obtain ⟨P, rfl, -⟩ := Server.line_keyword (by decide) ((getNext_delay_iff _ _).mp hcommand)
  have hP : NL ∉ P := fun hmem => hL (List.mem_append_right _ hmem)
  rcases parseDelay_cases hP mem R with
    ⟨hds, -⟩ | ⟨ds, c, rest, rfl, hds, hrange, hc⟩ | ⟨-, hdigits⟩
  · exact Or.inr ⟨P, hds, rfl⟩
  · exact Or.inl (.delay hds hrange hc rest)
  · right
    refine ⟨P, hdigits ?_, rfl⟩
    rw [List.append_assoc, clientRound, getNext_delay] at h
    have haccepted := (Prod.mk.inj (Option.some.inj h)).1
    by_contra hret
    have hrejected : (parseDelay mem (P ++ NL :: R)).ret = -1 := by
      unfold parseDelay at hret ⊢
      simp only at hret ⊢
      split_ifs at hret ⊢
      · rfl
      · exact absurd rfl hret
    rw [if_pos hrejected] at haccepted
    exact absurd haccepted (by simp)

/-! ## The buffer of `read_uint` -/

theorem clientRoundAt_delay (buf : List Byte) (s : Stream) :
    clientRoundAt buf (ascii "DELAY " ++ s)
      = (parseDelayAt buf s).map (fun p =>
          some (if p.ret = -1 then .invalid else .delay (p.delay.getD 0), p.rest)) := rfl

/-- Without a `DELAY` no number is read. -/
theorem clientRoundAt_other {s : Stream} (h : ∀ s', s ≠ ascii "DELAY " ++ s') (buf : List Byte) :
    clientRoundAt buf s = some (clientRound buf s) := by
  unfold clientRoundAt
  split
  · rename_i s' heq
    exact absurd ((getNext_delay_iff s s').mp heq) (h s')
  · rfl

/-- A line with too long a number leaves the buffer, and every other one is handled as without it. -/
theorem clientRoundAt_line {buf : List Byte} (hbuf : buf.length = 16) (L : List Byte) (R : Stream) :
    (LongDelay L ∧ clientRoundAt buf (L ++ NL :: R) = none) ∨
      (¬ LongDelay L ∧ clientRoundAt buf (L ++ NL :: R) = some (clientRound buf (L ++ NL :: R))) := by
  by_cases hdelay : ∃ P, L = ascii "DELAY " ++ P
  · obtain ⟨P, rfl⟩ := hdelay
    have hnumber := @Server.numberInside_line buf hbuf P R
    rw [List.append_assoc, clientRoundAt_delay]
    by_cases hlong : 15 < (P.takeWhile isDigit).length
    · refine Or.inl ⟨⟨P, rfl, hlong⟩, ?_⟩
      rw [parseDelayAt_outside (fun h => hnumber.mp h hlong)]
      rfl
    · refine Or.inr ⟨?_, ?_⟩
      · rintro ⟨P', heq, hlong'⟩
        rw [← List.append_cancel_left heq] at hlong'
        exact hlong hlong'
      · rw [parseDelayAt_inside (hnumber.mpr hlong)]
        rfl
  · have hother : ∀ s', L ++ NL :: R ≠ ascii "DELAY " ++ s' := by
      intro s' heq
      obtain ⟨P, rfl, -⟩ := Server.line_keyword (by decide) heq
      exact hdelay ⟨P, rfl⟩
    refine Or.inr ⟨?_, clientRoundAt_other hother buf⟩
    rintro ⟨P, rfl, -⟩
    exact hdelay ⟨P, rfl⟩

/-! ## Lines -/

/-- The round leaves the position at the start of the next line. -/
theorem argsRest_line_iff {L : List Byte} (hL : NL ∉ L) (mem : List Byte) (R : Stream) :
    argsRest mem (getNext (L ++ NL :: R)) = R ↔ ¬ StopsShort L ∧ (¬ ClientOverrun L ∨ R = []) :=
  Server.position_iff (fun h => overrun_beyond h hL mem R) (fun h => stopsShort_left h mem R)
    (line_cases hL mem R)

/-- A `DELAY` without a number is taken for one of zero. -/
theorem clientRound_noNumber (mem : List Byte) (R : Stream) :
    clientRound mem (ascii "DELAY " ++ NL :: R) = some (.delay 0, R) := by
  have hread := @parseDelay_digits [] (by simp) NL (by decide) mem R
  rw [List.nil_append] at hread
  rw [clientRound, getNext_delay]
  simp only [hread]
  rfl

theorem not_isDelayLine_noNumber : ¬ IsDelayLine (ascii "DELAY ") := by
  rintro ⟨ds, hne, -, heq⟩
  exact hne (List.self_eq_append_right.mp heq)

/-- On the bytes alone: no part of the line is left over, it is not a `DELAY` without a number, and it
    does not overrun, or no text follows that it could take with it. -/
theorem clientRound_handled_iff (mem : List Byte) {L : List Byte} (hL : NL ∉ L) (R : Stream) :
    (∃ command, clientRound mem (L ++ NL :: R) = some (command, R) ∧
      ∀ delayMs, command = .delay delayMs → IsDelayLine L) ↔
      ¬ StopsShort L ∧ L ≠ ascii "DELAY " ∧ (¬ ClientOverrun L ∨ R = []) := by
  have hposition := argsRest_line_iff hL mem R
  constructor
  · rintro ⟨command, hround, hdelay⟩
    obtain ⟨hshort, hover⟩ := hposition.mp (clientRound_rest hround).symm
    refine ⟨hshort, ?_, hover⟩
    rintro rfl
    rw [clientRound_noNumber] at hround
    obtain rfl := (Prod.mk.inj (Option.some.inj hround)).1
    exact not_isDelayLine_noNumber (hdelay 0 rfl)
  · rintro ⟨hshort, hnumber, hover⟩
    obtain ⟨command, hround⟩ : ∃ command, clientRound mem (L ++ NL :: R)
        = some (command, argsRest mem (getNext (L ++ NL :: R))) := by
      cases L with
      | nil => exact clientRound_goesOn mem NL R
      | cons ch L => exact clientRound_goesOn mem ch (L ++ NL :: R)
    rw [hposition.mpr ⟨hshort, hover⟩] at hround
    refine ⟨command, hround, ?_⟩
    rintro delayMs rfl
    obtain ⟨ds, hds, rfl⟩ := (clientRound_delay hL hround).resolve_left hshort
    refine ⟨ds, ?_, hds, rfl⟩
    rintro rfl
    exact hnumber (List.append_nil _)

/-- **When a line is handled as one line**: its number leaves no buffer, no part of it is left over, it is
    not a `DELAY` without a number, and it does not overrun, or no text follows that it could take with
    it. -/
theorem clientRound_line_iff (buf : List Byte) (hbuf : buf.length = 16) (L : List Byte) (hL : NL ∉ L)
    (R : Stream) :
    HandledAsLine buf L R ↔
      ¬ LongDelay L ∧ ¬ StopsShort L ∧ L ≠ ascii "DELAY " ∧ (¬ ClientOverrun L ∨ R = []) := by
  rw [← clientRound_handled_iff buf hL R]
  unfold HandledAsLine
  rcases clientRoundAt_line hbuf L R with ⟨hlong, hround⟩ | ⟨hlong, hround⟩
  · rw [hround]
    constructor
    · rintro ⟨command, hcommand, -⟩
      exact absurd hcommand (by simp)
    · rintro ⟨h, -⟩
      exact absurd hlong h
  · rw [hround]
    constructor
    · rintro ⟨command, hcommand, hdelay⟩
      exact ⟨hlong, command, Option.some.inj hcommand, hdelay⟩
    · rintro ⟨-, command, hcommand, hdelay⟩
      exact ⟨command, congrArg some hcommand, hdelay⟩

/-- A delay in a line of its own. -/
theorem clientRound_line_delay :
    (List.replicate 16 (0 : Byte)).length = 16 ∧ NL ∉ ascii "DELAY 250" ∧
      HandledAsLine (List.replicate 16 0) (ascii "DELAY 250") (ascii "DISCONNECT\n") := by
  have hbuf : (List.replicate 16 (0 : Byte)).length = 16 := List.length_replicate
  have hline : NL ∉ ascii "DELAY 250" := by decide
  have hlong : ¬ LongDelay (ascii "DELAY 250") := by
    rintro ⟨P, heq, hlong⟩
    have htext : ascii "DELAY " ++ ascii "250" = ascii "DELAY " ++ P := heq
    rw [← List.append_cancel_left htext] at hlong
    exact absurd hlong (by decide)
  have hshort : ¬ StopsShort (ascii "DELAY 250") := by
    intro h
    have hlt := stopsShort_left h [] []
    exact absurd hlt (by decide)
  have hover : ¬ ClientOverrun (ascii "DELAY 250") := by
    intro h
    rcases overrun_beyond h hline [] (ascii "X") with hlt | ⟨hR, -⟩
    · exact absurd hlt (by decide)
    · exact absurd hR (by decide)
  exact ⟨hbuf, hline, (clientRound_line_iff _ hbuf _ hline (ascii "DISCONNECT\n")).mpr
    ⟨hlong, hshort, by decide, Or.inl hover⟩⟩

/-- **What follows the number of a delay** is read as a line of its own, here as a `DISCONNECT`. -/
theorem delay_trailing_read :
    ¬ HandledAsLine (List.replicate 16 0) (ascii "DELAY 1 DISCONNECT")
      (ascii "SUBSCRIBE [a]\n") := by
  have hround : clientRoundAt (List.replicate 16 0)
      (ascii "DELAY 1 DISCONNECT" ++ NL :: ascii "SUBSCRIBE [a]\n")
      = some (some (.delay 1, ascii "DISCONNECT\nSUBSCRIBE [a]\n")) := by
    decide
  rintro ⟨command, hcommand, -⟩
  rw [hround] at hcommand
  have hrest := (Prod.mk.inj (Option.some.inj (Option.some.inj hcommand))).2
  exact absurd hrest (by decide)

end Kvs.Client
