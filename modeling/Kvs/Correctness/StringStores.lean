import Kvs.Correctness.Grammar
import Kvs.Correctness.Resync
import Kvs.Client.ParserStores

/-!
# `Correctness.StringStores` — which strings fit their buffers

`read_string` stores at most `max` bytes in its loop and a NUL behind them, so it needs one byte more than
`max` as soon as it meets `max` plain bytes in a row (`TooLong`). It stays inside a buffer of `max` bytes on
every other text. For the parsers above it the texts with such a string where a key or a value is read are
`PairsTooLong` and `KeysTooLong`; on all others no store leaves a buffer (`strings_inside_iff`), and the
result is the one of `Server.Parser`.
-/

namespace Kvs.Server

open Stores

/-! ## The texts that do not fit -/

/-- The text starts with `max` plain bytes. -/
def TooLong (max : Nat) (s : Stream) : Prop :=
  ∃ t rest, s = t ++ rest ∧ (∀ b ∈ t, isPlain b) ∧ t.length = max

/-- After `[(`, with `room` pairs still to go in: a key or a value of the list is too long. -/
inductive PairsTooLong : Nat → Stream → Prop where
  | key {room : Nat} {s : Stream} (h : TooLong MAX_STRING_SIZE s) : PairsTooLong (room + 1) s
  | value {room : Nat} {k : List Byte} {s : Stream} (hk : IsToken MAX_STRING_SIZE k)
      (h : TooLong MAX_STRING_SIZE s) : PairsTooLong (room + 1) (k ++ COMMA :: s)
  | more {room : Nat} {k v : List Byte} {s : Stream} (hk : IsToken MAX_STRING_SIZE k)
      (hv : IsToken MAX_STRING_SIZE v) (h : PairsTooLong room s) :
      PairsTooLong (room + 1) (k ++ COMMA :: (v ++ RPAREN :: LPAREN :: s))

/-- After `[`, with `room` keys still to go in: a key of the list is too long. -/
inductive KeysTooLong (max : Nat) : Nat → Stream → Prop where
  | key {room : Nat} {s : Stream} (h : TooLong max s) : KeysTooLong max (room + 1) s
  | more {room : Nat} {k : List Byte} {s : Stream} (hk : IsToken max k)
      (h : KeysTooLong max room s) : KeysTooLong max (room + 1) (k ++ COMMA :: s)

/-! ## `read_string` -/

/-- The number of bytes `read_string` stores. -/
theorem readString_buffer_length (max : Nat) (s : Stream) :
    (TooLong max s → (readString max s).buffer.length = max + 1) ∧
      (¬ TooLong max s → (readString max s).buffer.length ≤ max) := by
  constructor
  · rintro ⟨t, rest, rfl, ht, hlen⟩
    rw [readString_tooLong ht hlen, List.length_append, hlen]
    rfl
  · intro hfits
    induction max generalizing s with
    | zero => exact absurd ⟨[], s, rfl, by simp, rfl⟩ hfits
    | succ max ih =>
        cases s with
        | nil => exact Nat.zero_le _
        | cons ch s =>
            rw [readString]
            split_ifs with hsp hcomma hrparen hrbrack
            · exact Nat.zero_le _
            · simp
            · simp
            · simp
            · -- a plain byte, and `max` of them do not follow
              have hrest : ¬ TooLong max s := by
                rintro ⟨t, rest, rfl, ht, hlen⟩
                refine hfits ⟨ch :: t, rest, rfl, ?_, by rw [List.length_cons, hlen]⟩
                intro b hb
                rcases List.mem_cons.mp hb with rfl | hb'
                · exact ⟨hsp, hcomma, hrparen, hrbrack⟩
                · exact ht b hb'
              exact Nat.succ_le_succ (ih s hrest)

theorem readStringAt_tooLong {max : Nat} {buffer : List Byte} (hbuffer : buffer.length = max)
    {s : Stream} (h : TooLong max s) : readStringAt max buffer s = none := by
  have hlen := (readString_buffer_length max s).1 h
  rw [readStringAt_eq, storeAll_overflows (Nat.zero_le _) (by omega)]
  rfl

/-- On every other text the buffer holds what `readString` lists, and the rest of it is as it was. -/
theorem readStringAt_fits {max : Nat} {buffer : List Byte} (hbuffer : buffer.length = max)
    {s : Stream} (h : ¬ TooLong max s) :
    readStringAt max buffer s
      = some { readString max s with
          buffer := (readString max s).buffer ++ buffer.drop (readString max s).buffer.length } := by
  have hlen := (readString_buffer_length max s).2 h
  rw [readStringAt_eq, storeAll_fits (by omega)]
  rfl

/-- What a buffer holds behind a NUL is not part of the string. -/
theorem ofBuffer_behind_nul (t rest : List Byte) :
    CStr.ofBuffer (t ++ 0 :: rest) = CStr.ofBuffer (t ++ [0]) := by
  have huntil : untilNul (t ++ 0 :: rest) = untilNul (t ++ [0]) := by
    induction t with
    | nil => rfl
    | cons b t ih =>
        unfold untilNul at ih ⊢
        rw [List.cons_append, List.cons_append, List.takeWhile_cons, List.takeWhile_cons, ih]
  unfold CStr.ofBuffer
  simp only [huntil]

/-- A string and its delimiter, in a buffer: the string is the one stored, and the buffer keeps its
    length. -/
theorem readStringAt_token {max : Nat} {buffer : List Byte} (hbuffer : buffer.length = max)
    {t : List Byte} (ht : IsToken max t) {d : Byte} {value : Int}
    (hd : (d, value) ∈ [(COMMA, (0 : Int)), (RPAREN, 1), (RBRACK, 2)]) (s : Stream) :
    ∃ b, readStringAt max buffer (t ++ d :: s) = some ⟨value, b, s⟩ ∧ b.length = max ∧
      CStr.ofBuffer b = CStr.ofBuffer (t ++ [0]) := by
  have hread := readString_token ht hd s
  have hfits : ¬ TooLong max (t ++ d :: s) := by
    intro hlong
    have hlen := (readString_buffer_length max _).1 hlong
    have hshort := ht.2
    rw [hread] at hlen
    simp at hlen
    omega
  refine ⟨(t ++ [0]) ++ buffer.drop (t ++ [0]).length, ?_, ?_, ?_⟩
  · rw [readStringAt_fits hbuffer hfits, hread]
  · have hshort := ht.2
    simp only [List.length_append, List.length_drop, List.length_singleton]
    omega
  · rw [List.append_assoc, List.singleton_append]
    exact ofBuffer_behind_nul t _

/-- **`read_string` stays inside its buffer** exactly when `max` plain bytes do not come first. -/
theorem readStringAt_isSome_iff {max : Nat} {buffer : List Byte} (hbuffer : buffer.length = max)
    (s : Stream) : (readStringAt max buffer s).isSome ↔ ¬ TooLong max s := by
  apply Stores.isSome_iff_not
  · intro hlong
    exact readStringAt_tooLong hbuffer hlong
  · intro h
    exact readStringAt_fits hbuffer h

/-! ## The parsers above it -/

/-- A string that was read up to a delimiter: the token in front of it, and what the buffer holds. -/
theorem readStringAt_inv {max : Nat} {buffer : List Byte} (hbuffer : buffer.length = max) {s : Stream}
    (hvalue : 0 ≤ (readString max s).value) :
    ∃ t d b, IsToken max t ∧ (d, (readString max s).value) ∈ [(COMMA, (0 : Int)), (RPAREN, 1), (RBRACK, 2)] ∧
      s = t ++ d :: (readString max s).rest ∧ (readString max s).buffer = t ++ [0] ∧
      readStringAt max buffer s = some { readString max s with buffer := b } ∧
      b.length = max ∧ CStr.ofBuffer b = CStr.ofBuffer (t ++ [0]) := by
  obtain ⟨t, d, ht, hd, hs, htoken⟩ := readString_inv hvalue
  obtain ⟨b, hb, hlen, hstr⟩ := readStringAt_token hbuffer ht hd (readString max s).rest
  rw [← hs] at hb
  exact ⟨t, d, b, ht, hd, hs, htoken, hb, hlen, hstr⟩

/-- A delimiter that neither rejects the list nor ends it is a comma. -/
theorem comma_of_value {d : Byte} {value : Int}
    (hd : (d, value) ∈ [(COMMA, (0 : Int)), (RPAREN, 1), (RBRACK, 2)])
    (hbad : ¬ (value < 0 ∨ value = 1)) (hlast : ¬ value = 2) : d = COMMA := by
  simp only [List.mem_cons, Prod.mk.injEq, List.not_mem_nil, or_false] at hd
  rcases hd with ⟨rfl, -⟩ | ⟨-, hone⟩ | ⟨-, htwo⟩
  · rfl
  · exact absurd (Or.inr hone) hbad
  · exact absurd htwo hlast

/-- Where no string is too long the loop of `parse_write` gives what `pairsLoop` gives. -/
theorem pairsLoopAt_fits {room : Nat} {s : Stream} (h : ¬ PairsTooLong room s) (maxPairs : Nat)
    {key value : List Byte} (hkey : key.length = MAX_STRING_SIZE)
    (hvalue : value.length = MAX_STRING_SIZE) (stored : List (CStr × CStr)) :
    pairsLoopAt maxPairs room key value stored s = some (pairsLoop maxPairs room stored s) := by
  induction room generalizing key value stored s with
  | zero => rfl
  | succ room ih =>
      rw [pairsLoopAt, pairsLoop, parsePairAt, parsePair]
      by_cases hk : (readString MAX_STRING_SIZE s).value = 0
      · obtain ⟨k, d, kb, hktoken, hd, hs, hkbuffer, hkread, hklen, hkstr⟩ :=
          readStringAt_inv hkey (le_of_eq hk.symm)
        rw [hk] at hd
        obtain rfl : d = COMMA := by simpa using hd
        rw [hkread]
        simp only [hk, Option.bind_some, ne_eq, not_true_eq_false, if_false]
        generalize (readString MAX_STRING_SIZE s).rest = s' at hs ⊢
        by_cases hv : (readString MAX_STRING_SIZE s').value = 1
        · obtain ⟨v, e, vb, hvtoken, he, hs', hvbuffer, hvread, hvlen, hvstr⟩ :=
            readStringAt_inv hvalue (hv ▸ (by decide : (0 : Int) ≤ 1))
          rw [hv] at he
          obtain rfl : e = RPAREN := by simpa using he
          rw [hvread]
          simp only [hv, Option.map_some, Option.bind_some, not_true_eq_false, if_false,
            hkstr, hvstr, hkbuffer, hvbuffer]
          generalize (readString MAX_STRING_SIZE s').rest = s'' at hs' ⊢
          cases s'' with
          | nil => rfl
          | cons ch s'' =>
              simp only
              split_ifs with hlparen hrbrack
              · -- the next pair is in a text without a string that is too long
                refine ih ?_ hklen hvlen _
                intro hlong
                rw [hs, hs', hlparen] at h
                exact h (.more hktoken hvtoken hlong)
              · rfl
              · rfl
        · have hvfits : ¬ TooLong MAX_STRING_SIZE s' := by
            intro hlong
            rw [hs] at h
            exact h (.value hktoken hlong)
          rw [readStringAt_fits hvalue hvfits]
          simp only [hv, Option.map_some, Option.bind_some, not_false_eq_true, if_true]
      · rw [readStringAt_fits hkey (fun hlong => h (.key hlong))]
        simp only [hk, Option.bind_some, ne_eq, not_false_eq_true, if_true]

theorem pairsLoopAt_tooLong {room : Nat} {s : Stream} (h : PairsTooLong room s) (maxPairs : Nat)
    {key value : List Byte} (hkey : key.length = MAX_STRING_SIZE)
    (hvalue : value.length = MAX_STRING_SIZE) (stored : List (CStr × CStr)) :
    pairsLoopAt maxPairs room key value stored s = none := by
  induction h generalizing key value stored with
  | key h =>
      rw [pairsLoopAt, parsePairAt, readStringAt_tooLong hkey h]
      rfl
  | @value room k s hk h =>
      obtain ⟨kb, hkread, -, -⟩ := @readStringAt_token _ key hkey k hk COMMA 0 (by simp) s
      rw [pairsLoopAt, parsePairAt, hkread, Option.bind_some]
      simp only [readStringAt_tooLong hvalue h, Option.map_none, Option.bind_none, ne_eq,
        not_true_eq_false, if_false]
  | @more room k v s hk hv h ih =>
      obtain ⟨kb, hkread, hklen, -⟩ := @readStringAt_token _ key hkey k hk COMMA 0 (by simp)
        (v ++ RPAREN :: LPAREN :: s)
      obtain ⟨vb, hvread, hvlen, -⟩ := @readStringAt_token _ value hvalue v hv RPAREN 1 (by simp)
        (LPAREN :: s)
      rw [pairsLoopAt, parsePairAt, hkread, Option.bind_some]
      simp only [hvread, Option.map_some, Option.bind_some, ne_eq, not_true_eq_false, if_false,
        if_true]
      exact ih hklen hvlen _

/-- On a text without a string that is too long `parse_write` gives what `parseWrite` gives. -/
theorem parseWriteAt_fits {maxPairs : Nat} {s : Stream}
    (h : ¬ ∃ s', s = LBRACK :: LPAREN :: s' ∧ PairsTooLong maxPairs s') {key value : List Byte}
    (hkey : key.length = MAX_STRING_SIZE) (hvalue : value.length = MAX_STRING_SIZE) :
    parseWriteAt maxPairs key value s = some (parseWrite maxPairs s) := by
  cases s with
  | nil => rfl
  | cons b s =>
      by_cases hb : b = LBRACK
      · subst hb
        cases s with
        | nil => rfl
        | cons c s =>
            by_cases hc : c = LPAREN
            · subst hc
              have hfits : ¬ PairsTooLong maxPairs s := fun hlong => h ⟨s, rfl, hlong⟩
              rw [parseWrite_open]
              exact pairsLoopAt_fits hfits maxPairs hkey hvalue []
            · rw [parseWrite_noPair hc]
              simp [parseWriteAt, readTest, hc]
      · rw [parseWrite_noBracket hb]
        simp [parseWriteAt, readTest, hb]

/-- **`parse_write` stays inside its buffers** exactly when no string of its list is too long. -/
theorem parseWriteAt_isSome_iff (maxPairs : Nat) {key value : List Byte}
    (hkey : key.length = MAX_STRING_SIZE) (hvalue : value.length = MAX_STRING_SIZE) (s : Stream) :
    (parseWriteAt maxPairs key value s).isSome ↔
      ¬ ∃ s', s = LBRACK :: LPAREN :: s' ∧ PairsTooLong maxPairs s' := by
  apply Stores.isSome_iff_not
  · rintro ⟨s', rfl, hlong⟩
    exact pairsLoopAt_tooLong hlong maxPairs hkey hvalue []
  · intro h
    exact parseWriteAt_fits h hkey hvalue

/-- A key that is not too long, read into its buffer: value and position are those of `readString`, and
    so is the string, unless the list is rejected. Behind a comma no key is too long either. -/
theorem readKeyAt {max room : Nat} {s : Stream} (h : ¬ KeysTooLong max (room + 1) s) {key : List Byte}
    (hkey : key.length = max) :
    ∃ r, readStringAt max key s = some r ∧ r.value = (readString max s).value ∧
      r.rest = (readString max s).rest ∧
      (¬ (r.value < 0 ∨ r.value = 1) →
        r.buffer.length = max ∧ CStr.ofBuffer r.buffer = CStr.ofBuffer (readString max s).buffer) ∧
      (¬ (r.value < 0 ∨ r.value = 1) → ¬ r.value = 2 → ¬ KeysTooLong max room r.rest) := by
  by_cases hneg : 0 ≤ (readString max s).value
  · obtain ⟨k, d, b, hktoken, hd, hs, hkbuffer, hkread, hklen, hkstr⟩ := readStringAt_inv hkey hneg
    refine ⟨_, hkread, rfl, rfl, fun _ => ⟨hklen, ?_⟩, ?_⟩
    · rw [hkbuffer]
      exact hkstr
    · intro hbad hlast hlong
      obtain rfl : d = COMMA := comma_of_value hd hbad hlast
      rw [hs] at h
      exact h (.more hktoken hlong)
  · have hbad : (readString max s).value < 0 ∨ (readString max s).value = 1 :=
      Or.inl (Int.not_le.mp hneg)
    exact ⟨_, readStringAt_fits hkey (fun hlong => h (.key hlong)), rfl, rfl,
      fun hgood => absurd hbad hgood, fun hgood => absurd hbad hgood⟩

theorem keysLoopAt_fits {max room : Nat} {s : Stream} (h : ¬ KeysTooLong max room s) (maxKeys : Nat)
    {key : List Byte} (hkey : key.length = max) (stored : List CStr) :
    keysLoopAt maxKeys max room key stored s = some (keysLoop maxKeys max room stored s) := by
  induction room generalizing key stored s with
  | zero => rfl
  | succ room ih =>
      obtain ⟨r, hread, hvalue, hrest, hstring, hnext⟩ := readKeyAt h hkey
      rw [keysLoopAt, keysLoop, hread, Option.bind_some]
      rw [← hvalue, ← hrest]
      split_ifs with hbad hlast
      · rfl
      · rw [(hstring hbad).2]
      · rw [(hstring hbad).2]
        exact ih (hnext hbad hlast) (hstring hbad).1 _

theorem keysLoopAt_tooLong {max room : Nat} {s : Stream} (h : KeysTooLong max room s) (maxKeys : Nat)
    {key : List Byte} (hkey : key.length = max) (stored : List CStr) :
    keysLoopAt maxKeys max room key stored s = none := by
  induction h generalizing key stored with
  | key h =>
      rw [keysLoopAt, readStringAt_tooLong hkey h]
      rfl
  | @more room k s hk h ih =>
      obtain ⟨b, hkread, hklen, -⟩ := @readStringAt_token _ key hkey k hk COMMA 0 (by simp) s
      rw [keysLoopAt, hkread, Option.bind_some]
      exact ih hklen _

/-- On a text without a key that is too long `parse_read_delete` gives what `parseReadDelete` gives. -/
theorem parseReadDeleteAt_fits {max maxKeys : Nat} {s : Stream}
    (h : ¬ ∃ s', s = LBRACK :: s' ∧ KeysTooLong max maxKeys s') {key : List Byte}
    (hkey : key.length = max) :
    parseReadDeleteAt maxKeys max key s = some (parseReadDelete maxKeys max s) := by
  cases s with
  | nil => rfl
  | cons b s =>
      by_cases hb : b = LBRACK
      · subst hb
        have hfits : ¬ KeysTooLong max maxKeys s := fun hlong => h ⟨s, rfl, hlong⟩
        rw [parseReadDelete_open]
        exact keysLoopAt_fits hfits maxKeys hkey []
      · rw [parseReadDelete_noBracket hb]
        simp [parseReadDeleteAt, readTest, hb]

/-- **`parse_read_delete` stays inside its buffer** exactly when no key of its list is too long. -/
theorem parseReadDeleteAt_isSome_iff (maxKeys : Nat) {max : Nat} {key : List Byte}
    (hkey : key.length = max) (s : Stream) :
    (parseReadDeleteAt maxKeys max key s).isSome ↔
      ¬ ∃ s', s = LBRACK :: s' ∧ KeysTooLong max maxKeys s' := by
  apply Stores.isSome_iff_not
  · rintro ⟨s', rfl, hlong⟩
    exact keysLoopAt_tooLong hlong maxKeys hkey []
  · intro h
    exact parseReadDeleteAt_fits h hkey

end Kvs.Server

namespace Kvs.Client

open Server (TooLong KeysTooLong readStringAt_tooLong readStringAt_token readKeyAt)

/-! ## The client -/

theorem listLoopAt_fits {max room : Nat} {s : Stream} (h : ¬ KeysTooLong max room s) (maxKeys : Nat)
    (output : Int) {key : List Byte} (hkey : key.length = max) (stored : List CStr) :
    listLoopAt maxKeys max room output key stored s
      = some (listLoop maxKeys max room output stored s) := by
  induction room generalizing output key stored s with
  | zero => rfl
  | succ room ih =>
      obtain ⟨r, hread, hvalue, hrest, hstring, hnext⟩ := readKeyAt h hkey
      rw [listLoopAt, listLoop, readStringAt_copy, readString_eq, hread, Option.bind_some]
      rw [← hvalue, ← hrest]
      split_ifs with hbad hlast
      · rfl
      · rw [(hstring hbad).2]
      · rw [(hstring hbad).2]
        exact ih (hnext hbad hlast) _ (hstring hbad).1 _

theorem listLoopAt_tooLong {max room : Nat} {s : Stream} (h : KeysTooLong max room s) (maxKeys : Nat)
    (output : Int) {key : List Byte} (hkey : key.length = max) (stored : List CStr) :
    listLoopAt maxKeys max room output key stored s = none := by
  induction h generalizing output key stored with
  | key h =>
      rw [listLoopAt, readStringAt_copy, readStringAt_tooLong hkey h]
      rfl
  | @more room k s hk h ih =>
      obtain ⟨b, hkread, hklen, -⟩ := @readStringAt_token _ key hkey k hk COMMA 0 (by simp) s
      rw [listLoopAt, readStringAt_copy, hkread, Option.bind_some]
      exact ih _ hklen _

/-- On a text without a key that is too long `parse_list` gives what `parseList` gives. -/
theorem parseListAt_fits {max maxKeys : Nat} {s : Stream}
    (h : ¬ ∃ s', s = LBRACK :: s' ∧ KeysTooLong max maxKeys s') {key : List Byte}
    (hkey : key.length = max) :
    parseListAt maxKeys max key s = some (parseList maxKeys max s) := by
  cases s with
  | nil => rfl
  | cons b s =>
      by_cases hb : b = LBRACK
      · subst hb
        have hfits : ¬ KeysTooLong max maxKeys s := fun hlong => h ⟨s, rfl, hlong⟩
        exact listLoopAt_fits hfits maxKeys 2 hkey []
      · simp [parseListAt, parseList, Server.readTest, hb]

/-- **`parse_list` stays inside its buffer** exactly when no key of its list is too long. -/
theorem parseListAt_isSome_iff (maxKeys : Nat) {max : Nat} {key : List Byte} (hkey : key.length = max)
    (s : Stream) :
    (parseListAt maxKeys max key s).isSome ↔
      ¬ ∃ s', s = LBRACK :: s' ∧ KeysTooLong max maxKeys s' := by
  apply Stores.isSome_iff_not
  · rintro ⟨s', rfl, hlong⟩
    exact listLoopAt_tooLong hlong maxKeys 2 hkey []
  · intro h
    exact parseListAt_fits h hkey

end Kvs.Client

namespace Kvs

open Server Client

/-! ## All of them -/

/-- **When every store is inside the buffer it is meant for.** `read_string`, the server's and the
    client's, overruns a buffer of `max` bytes exactly on the texts that start with `max` plain bytes; the
    parsers that call it with a buffer of `max` bytes do so exactly when such a text lies where they read
    a key or a value. -/
theorem strings_inside_iff (s : Stream) {max : Nat} (buffer : List Byte) (hbuffer : buffer.length = max)
    (key value : List Byte) (hkey : key.length = MAX_STRING_SIZE) (hvalue : value.length = MAX_STRING_SIZE)
    (maxPairs maxKeys : Nat) :
    ((Server.readStringAt max buffer s).isSome ↔ ¬ TooLong max s) ∧
    ((Client.readStringAt max buffer s).isSome ↔ ¬ TooLong max s) ∧
    ((parseWriteAt maxPairs key value s).isSome ↔
      ¬ ∃ s', s = LBRACK :: LPAREN :: s' ∧ PairsTooLong maxPairs s') ∧
    ((parseReadDeleteAt maxKeys max buffer s).isSome ↔
      ¬ ∃ s', s = LBRACK :: s' ∧ KeysTooLong max maxKeys s') ∧
    ((parseListAt maxKeys max buffer s).isSome ↔
      ¬ ∃ s', s = LBRACK :: s' ∧ KeysTooLong max maxKeys s') := by
  refine ⟨readStringAt_isSome_iff hbuffer s, ?_, parseWriteAt_isSome_iff maxPairs hkey hvalue s,
    parseReadDeleteAt_isSome_iff maxKeys hbuffer s, parseListAt_isSome_iff maxKeys hbuffer s⟩
  rw [readStringAt_copy]
  exact readStringAt_isSome_iff hbuffer s

/-- A key of 39 letters, with the delimiter that ends it. -/
def longestKey : Stream := List.replicate 39 97 ++ ascii ","

/-- The longest key that a buffer of `MAX_STRING_SIZE` bytes has room for. -/
theorem strings_inside_longest :
    (Server.readStringAt MAX_STRING_SIZE (List.replicate MAX_STRING_SIZE 0) longestKey).isSome ∧
      ¬ TooLong MAX_STRING_SIZE longestKey ∧
      (Client.readStringAt MAX_STRING_SIZE (List.replicate MAX_STRING_SIZE 0) longestKey).isSome := by
  have hbuffer : (List.replicate MAX_STRING_SIZE (0 : Byte)).length = MAX_STRING_SIZE :=
    List.length_replicate
  have hinside := strings_inside_iff longestKey _ hbuffer _ _ hbuffer hbuffer MAX_WRITE_SIZE
    MAX_WRITE_SIZE
  have hread : (Server.readStringAt MAX_STRING_SIZE (List.replicate MAX_STRING_SIZE 0)
      longestKey).isSome = true := by
    decide +kernel
  have hshort : ¬ TooLong MAX_STRING_SIZE longestKey := hinside.1.mp hread
  exact ⟨hread, hshort, hinside.2.1.mpr hshort⟩

/-- **40 letters put the NUL behind the buffer**, in each parser that reads them. -/
theorem fortyLetters_outside :
    Server.readStringAt MAX_STRING_SIZE (List.replicate 40 0) (List.replicate 40 97) = none ∧
    parseWriteAt MAX_WRITE_SIZE (List.replicate 40 0) (List.replicate 40 0)
      (ascii "[(" ++ List.replicate 40 97 ++ ascii ",1)]\n") = none ∧
    parseReadDeleteAt MAX_WRITE_SIZE MAX_STRING_SIZE (List.replicate 40 0)
      (ascii "[" ++ List.replicate 40 97 ++ ascii "]\n") = none ∧
    parseListAt 1 MAX_STRING_SIZE (List.replicate 40 0)
      (ascii "[" ++ List.replicate 40 97 ++ ascii "]\n") = none := by
  refine ⟨?_, ?_, ?_, ?_⟩
  · decide +kernel
  · rfl
  · rfl
  · rfl

end Kvs
