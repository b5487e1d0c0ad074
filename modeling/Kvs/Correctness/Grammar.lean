import Kvs.Server.Parser

/-!
# `Correctness.Grammar` — the lists that the parsers accept

`writeText` spells a list of pairs. On a stream without NUL bytes `parse_write` accepts exactly the lists
with fewer pairs than it has rows, each string of them a token (`parseWrite_iff`). One direction runs the
loops over a list that is given; the other reads off, from a run that ended with a number, where its
pieces lay in the stream. `keyListText` spells a list of keys, which `parse_read_delete` walks over up to
its closing bracket (`keysLoop_tokens`).
-/

namespace Kvs.Server

/-! ## The language -/

/-- `k,v)`: a pair behind its opening bracket. -/
def entryText (p : CStr × CStr) : List Byte := p.1.bytes ++ COMMA :: (p.2.bytes ++ [RPAREN])

/-- `(k1,v1)...(kn,vn)` -/
def entriesText (pairs : List (CStr × CStr)) : List Byte :=
  pairs.flatMap (fun p => LPAREN :: entryText p)

/-- `[(k1,v1)...(kn,vn)]` and a newline: the argument of a `WRITE`. -/
def writeText (pairs : List (CStr × CStr)) : List Byte :=
  LBRACK :: (entriesText pairs ++ [RBRACK, NL])

/-- Key and value fit their buffers and contain no delimiter. -/
def IsEntry (p : CStr × CStr) : Prop :=
  IsToken MAX_STRING_SIZE p.1.bytes ∧ IsToken MAX_STRING_SIZE p.2.bytes

instance (p : CStr × CStr) : Decidable (IsEntry p) := inferInstanceAs (Decidable (_ ∧ _))

/-- The stream `s` is a list of `pairs` that fits in `maxPairs` rows, one of them left free, and then `R`. -/
structure IsWriteList (maxPairs : Nat) (s : Stream) (pairs : List (CStr × CStr)) (R : Stream) : Prop where
  nonempty : 1 ≤ pairs.length
  length_lt : pairs.length < maxPairs
  entries : ∀ p ∈ pairs, IsEntry p
  text : s = writeText pairs ++ R

/-! ## Strings and pairs -/

/-- Where `read_string` finds a delimiter, a token lies in front of it. -/
theorem readString_inv {max : Nat} {s : Stream} (h : 0 ≤ (readString max s).value) :
    ∃ t d, IsToken max t ∧
      (d, (readString max s).value) ∈ [(COMMA, (0 : Int)), (RPAREN, 1), (RBRACK, 2)] ∧
      s = t ++ d :: (readString max s).rest ∧ (readString max s).buffer = t ++ [0] := by
  induction max generalizing s with
  | zero => exact absurd h (by simp [readString])
  | succ max ih =>
      cases s with
      | nil => exact absurd h (by simp [readString])
      | cons ch s =>
          have hempty : IsToken (max + 1) [] := ⟨by simp, by simp⟩
          unfold readString at h ⊢
          split_ifs at h ⊢ with hsp hcomma hrparen hrbrack
          · exact absurd h (by simp)
          · exact ⟨[], ch, hempty, by simp [hcomma], rfl, rfl⟩
          · exact ⟨[], ch, hempty, by simp [hrparen], rfl, rfl⟩
          · exact ⟨[], ch, hempty, by simp [hrbrack], rfl, rfl⟩
          · -- a plain byte is the first of the token
            obtain ⟨t, d, ht, hd, hs, hbuffer⟩ := ih h
            refine ⟨ch :: t, d, ⟨?_, ?_⟩, hd, ?_, ?_⟩
            · intro b hb
              rcases List.mem_cons.mp hb with rfl | hb'
              · exact ⟨hsp, hcomma, hrparen, hrbrack⟩
              · exact ht.1 b hb'
            · exact Nat.succ_lt_succ ht.2
            · exact congrArg (ch :: ·) hs
            · exact congrArg (ch :: ·) hbuffer

/-- The string stored for a token without NUL is the token. -/
theorem ofBuffer_token {t : List Byte} (ht : (0 : Byte) ∉ t) :
    (CStr.ofBuffer (t ++ [0])).bytes = t :=
  untilNul_append_nul ht []

/-- A pair that `parse_pair` reads from a stream without NUL lies at the front of it. -/
theorem parsePair_sound {s rest : Stream} (hs : (0 : Byte) ∉ s) {p : CStr × CStr}
    (h : parsePair s = (some p, rest)) : IsEntry p ∧ s = entryText p ++ rest := by
  unfold parsePair at h
  simp only at h
  split_ifs at h with hkey hvalue
  · simp at h
  · simp at h
  · -- both strings ended at the delimiter that belongs there
    obtain ⟨hp, rfl⟩ := Prod.mk.inj h
    obtain rfl := Option.some.inj hp
    have hkey' := not_not.mp hkey
    have hvalue' := not_not.mp hvalue
    obtain ⟨k, d, hk, hd, hks, hkb⟩ := readString_inv (le_of_eq hkey'.symm)
    obtain ⟨v, e, hv, he, hvs, hvb⟩ := readString_inv (hvalue' ▸ (by decide : (0 : Int) ≤ 1))
    rw [hkey'] at hd
    rw [hvalue'] at he
    obtain rfl : d = COMMA := by simpa using hd
    obtain rfl : e = RPAREN := by simpa using he
    rw [hvs] at hks
    have hk0 : (0 : Byte) ∉ k := by
      intro hmem
      exact hs (by rw [hks]; simp [hmem])
    have hv0 : (0 : Byte) ∉ v := by
      intro hmem
      exact hs (by rw [hks]; simp [hmem])
    unfold IsEntry entryText
    simp only [hkb, hvb, ofBuffer_token hk0, ofBuffer_token hv0]
    refine ⟨⟨hk, hv⟩, hks.trans ?_⟩
    simp

theorem parsePair_complete {p : CStr × CStr} (hp : IsEntry p) (s : Stream) :
    parsePair (entryText p ++ s) = (some p, s) := by
  have hpair := parsePair_tokens hp.1 hp.2 s
  rw [CStr.ofBuffer_append_nul, CStr.ofBuffer_append_nul] at hpair
  unfold entryText
  rw [List.append_assoc, List.cons_append, List.append_assoc]
  exact hpair

/-! ## The loop -/

/-- The end of a list that leaves a row free. -/
theorem closeList_newline {α : Type} {max : Nat} {stored : List α} (h : stored.length < max)
    (s : Stream) : closeList max stored (NL :: s) = ⟨stored.length, stored, s⟩ := by
  rw [closeList, if_neg (Nat.ne_of_lt h)]
  rfl

/-- A list that was closed left a row free and ended with a newline or a NUL. -/
theorem closeList_inv {α : Type} {max : Nat} {stored : List α} {s : Stream}
    (h : (closeList max stored s).num ≠ 0) :
    stored.length ≠ max ∧ ∃ ch R, (ch = NL ∨ ch = 0) ∧ s = ch :: R := by
  unfold closeList at h
  split_ifs at h with hfull
  · exact absurd rfl h
  · cases s with
    | nil => exact absurd rfl h
    | cons ch R =>
        refine ⟨hfull, ch, R, ?_, rfl⟩
        unfold readTest at h
        simp only at h
        split_ifs at h with hch
        · simpa using hch
        · exact absurd rfl h

/-- The loop over pairs that have their rows, up to the closing bracket. -/
theorem pairsLoop_entries {max room : Nat} {stored : List (CStr × CStr)} {p : CStr × CStr}
    {pairs : List (CStr × CStr)} (hentries : ∀ q ∈ p :: pairs, IsEntry q)
    (hroom : pairs.length < room) (s : Stream) :
    pairsLoop max room stored (entryText p ++ (entriesText pairs ++ RBRACK :: s))
      = closeList max (stored ++ p :: pairs) s := by
  obtain ⟨hp, hpairs⟩ := List.forall_mem_cons.mp hentries
  clear hentries
  induction pairs generalizing p room stored with
  | nil =>
      obtain ⟨room, rfl⟩ : ∃ n, room = n + 1 := ⟨room - 1, by omega⟩
      rw [pairsLoop, parsePair_complete hp]
      rfl
  | cons q pairs ih =>
      obtain ⟨room, rfl⟩ : ∃ n, room = n + 1 := ⟨room - 1, by omega⟩
      obtain ⟨hq, hrest⟩ := List.forall_mem_cons.mp hpairs
      rw [pairsLoop, parsePair_complete hp]
      show pairsLoop max room (stored ++ [p])
        ((entryText q ++ entriesText pairs) ++ RBRACK :: s) = _
      rw [List.append_assoc, ih (Nat.lt_of_succ_lt_succ hroom) hq hrest]
      simp

/-- A loop that ends with a number has walked over a list. -/
theorem pairsLoop_sound {max room : Nat} {stored : List (CStr × CStr)} {s : Stream}
    (hs : (0 : Byte) ∉ s) (hmax : stored.length + room = max)
    (h : (pairsLoop max room stored s).num ≠ 0) :
    ∃ p pairs R, (∀ q ∈ p :: pairs, IsEntry q) ∧ pairs.length + 1 < room ∧
      s = entryText p ++ (entriesText pairs ++ RBRACK :: NL :: R) := by
  induction room generalizing stored s with
  | zero => exact absurd (by omega) (closeList_inv h).1
  | succ room ih =>
      unfold pairsLoop at h
      split at h
      · exact absurd rfl h
      · rename_i p rest hpair
        obtain ⟨hp, rfl⟩ := parsePair_sound hs hpair
        have hrest : (0 : Byte) ∉ rest := fun hmem => hs (List.mem_append_right _ hmem)
        cases rest with
        | nil => exact absurd rfl h
        | cons ch rest =>
            have hrest' : (0 : Byte) ∉ rest := fun hmem => hrest (List.mem_cons_of_mem _ hmem)
            simp only at h
            split_ifs at h with hlparen hrbrack
            · -- another pair follows
              obtain ⟨q, pairs, R, hentries, hroom, rfl⟩ := ih hrest' (by simp; omega) h
              refine ⟨p, q :: pairs, R, List.forall_mem_cons.mpr ⟨hp, hentries⟩, ?_, ?_⟩
              · rw [List.length_cons]
                omega
              · rw [hlparen]
                simp [entriesText]
            · -- the list is closed, and no NUL is there to end it
              obtain ⟨hfree, c, R, hc, rfl⟩ := closeList_inv h
              have hnl : c = NL := by
                rcases hc with rfl | rfl
                · rfl
                · exact absurd List.mem_cons_self hrest'
              refine ⟨p, [], R, by simpa using hp, ?_, ?_⟩
              · simp at hfree ⊢
                omega
              · rw [hrbrack, hnl]
                rfl
            · exact absurd rfl h

/-! ## Lists of keys -/

/-- `k1,...,kn` -/
def keyListText : List (List Byte) → List Byte
  | [] => []
  | [k] => k
  | k :: keys => k ++ COMMA :: keyListText keys

theorem keyListText_cons_cons (k k' : List Byte) (keys : List (List Byte)) :
    keyListText (k :: k' :: keys) = k ++ COMMA :: keyListText (k' :: keys) := rfl

/-- What is stored for a key. -/
def keyStored (k : List Byte) : CStr := CStr.ofBuffer (k ++ [0])

/-- The key loop over a list whose keys have their rows, up to its closing bracket. -/
theorem keysLoop_tokens {max maxStringSize room : Nat} {stored : List CStr} {k : List Byte}
    {keys : List (List Byte)} (htokens : ∀ t ∈ k :: keys, IsToken maxStringSize t)
    (hroom : keys.length < room) (s : Stream) :
    keysLoop max maxStringSize room stored (keyListText (k :: keys) ++ RBRACK :: s)
      = closeList max (stored ++ (k :: keys).map keyStored) s := by
  obtain ⟨hk, hkeys⟩ := List.forall_mem_cons.mp htokens
  clear htokens
  induction keys generalizing k room stored with
  | nil =>
      obtain ⟨room, rfl⟩ : ∃ n, room = n + 1 := ⟨room - 1, by omega⟩
      have hkey := @readString_token _ _ hk RBRACK 2 (by simp) s
      rw [keyListText, keysLoop, hkey]
      rfl
  | cons k' keys ih =>
      obtain ⟨room, rfl⟩ : ∃ n, room = n + 1 := ⟨room - 1, by omega⟩
      obtain ⟨hk', hrest⟩ := List.forall_mem_cons.mp hkeys
      have hkey := @readString_token _ _ hk COMMA 0 (by simp)
        (keyListText (k' :: keys) ++ RBRACK :: s)
      rw [keyListText_cons_cons, List.append_assoc, List.cons_append, keysLoop, hkey]
      show keysLoop max maxStringSize room (stored ++ [keyStored k]) _ = _
      rw [ih (Nat.lt_of_succ_lt_succ hroom) hk' hrest]
      simp

/-- Keys that have their rows, up to the closing bracket. -/
theorem parseReadDelete_tokens {maxKeys maxStringSize : Nat} {keys : List (List Byte)}
    (hne : 1 ≤ keys.length) (htokens : ∀ t ∈ keys, IsToken maxStringSize t)
    (hroom : keys.length ≤ maxKeys) (s : Stream) :
    parseReadDelete maxKeys maxStringSize (LBRACK :: (keyListText keys ++ RBRACK :: s))
      = closeList maxKeys (keys.map keyStored) s := by
  obtain ⟨k, keys, rfl⟩ := List.exists_cons_of_length_pos hne
  rw [parseReadDelete_open, keysLoop_tokens htokens hroom, List.nil_append]

/-! ## `parse_write` -/

/-- Pairs that have their rows, up to the closing bracket. -/
theorem parseWrite_entries {maxPairs : Nat} {pairs : List (CStr × CStr)} (hne : 1 ≤ pairs.length)
    (hentries : ∀ p ∈ pairs, IsEntry p) (hroom : pairs.length ≤ maxPairs) (s : Stream) :
    parseWrite maxPairs (LBRACK :: (entriesText pairs ++ RBRACK :: s))
      = closeList maxPairs pairs s := by
  obtain ⟨p, pairs, rfl⟩ := List.exists_cons_of_length_pos hne
  have htext : LBRACK :: (entriesText (p :: pairs) ++ RBRACK :: s)
      = LBRACK :: LPAREN :: (entryText p ++ (entriesText pairs ++ RBRACK :: s)) := by
    simp [entriesText]
  rw [htext, parseWrite_open, pairsLoop_entries hentries hroom, List.nil_append]

theorem parseWrite_complete {maxPairs : Nat} {s R : Stream} {pairs : List (CStr × CStr)}
    (h : IsWriteList maxPairs s pairs R) : parseWrite maxPairs s = ⟨pairs.length, pairs, R⟩ := by
  obtain ⟨hne, hlt, hentries, rfl⟩ := h
  have htext : writeText pairs ++ R = LBRACK :: (entriesText pairs ++ RBRACK :: NL :: R) := by
    simp [writeText]
  rw [htext, parseWrite_entries hne hentries hlt.le, closeList_newline hlt]

/-- A list that `parse_write` accepts begins with its two brackets. -/
theorem parseWrite_opened {maxPairs : Nat} {s : Stream} (h : (parseWrite maxPairs s).num ≠ 0) :
    ∃ s', s = LBRACK :: LPAREN :: s' := by
  cases s with
  | nil => exact absurd rfl h
  | cons b s =>
      by_cases hb : b = LBRACK
      · subst hb
        cases s with
        | nil => exact absurd rfl h
        | cons c s =>
            by_cases hc : c = LPAREN
            · subst hc
              exact ⟨s, rfl⟩
            · rw [parseWrite_noPair hc] at h
              exact absurd rfl h
      · rw [parseWrite_noBracket hb] at h
        exact absurd rfl h

theorem parseWrite_sound {maxPairs : Nat} {s : Stream} (hs : (0 : Byte) ∉ s)
    (h : (parseWrite maxPairs s).num ≠ 0) : ∃ pairs R, IsWriteList maxPairs s pairs R := by
  obtain ⟨s, rfl⟩ := parseWrite_opened h
  rw [parseWrite_open] at h
  have hs' : (0 : Byte) ∉ s := fun hmem => hs (by simp [hmem])
  obtain ⟨p, pairs, R, hentries, hroom, rfl⟩ :=
    @pairsLoop_sound maxPairs maxPairs [] s hs' (Nat.zero_add _) h
  refine ⟨p :: pairs, R, by simp, by simpa using hroom, hentries, ?_⟩
  simp [writeText, entriesText]

/-- **`parse_write` accepts exactly the lists.** On a stream without NUL it returns the number of pairs
    of the list the stream starts with, stores these pairs and stops behind the newline; where the stream
    does not start with a list it returns 0. -/
theorem parseWrite_iff (maxPairs : Nat) {s : Stream} (hs : (0 : Byte) ∉ s) :
    (∀ pairs R,
      (0 < (parseWrite maxPairs s).num ∧ (parseWrite maxPairs s).num = pairs.length ∧
        (parseWrite maxPairs s).stored.take (parseWrite maxPairs s).num = pairs ∧
        (parseWrite maxPairs s).rest = R) ↔ IsWriteList maxPairs s pairs R) ∧
    ((¬ ∃ pairs R, IsWriteList maxPairs s pairs R) → (parseWrite maxPairs s).num = 0) := by
  refine ⟨?_, ?_⟩
  · intro pairs R
    constructor
    · rintro ⟨hpos, -, htake, hrest⟩
      obtain ⟨pairs', R', hlist⟩ := parseWrite_sound hs (Nat.ne_of_gt hpos)
      rw [parseWrite_complete hlist] at htake hrest
      obtain rfl : pairs' = pairs := by simpa using htake
      obtain rfl : R' = R := hrest
      exact hlist
    · intro hlist
      rw [parseWrite_complete hlist]
      exact ⟨hlist.nonempty, rfl, List.take_length, rfl⟩
  · intro hnone
    by_contra hnum
    exact hnone (parseWrite_sound hs hnum)

theorem parseWrite_iff_onePair :
    IsWriteList MAX_WRITE_SIZE (ascii "[(a,1)]\nSHOW\n")
      [(CStr.ofBuffer (ascii "a"), CStr.ofBuffer (ascii "1"))] (ascii "SHOW\n") :=
  ((parseWrite_iff MAX_WRITE_SIZE (by decide)).1 _ _).mp (by decide)

end Kvs.Server
