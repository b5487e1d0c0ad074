import Kvs.Correctness.LastLine
import Kvs.Client.ParserStores

/-!
# `Correctness.NumberStores` — which numbers `read_uint` reads

`read_uint` stores every byte it reads into its 16 bytes and never tests the index, so 15 digits are the
most that leave a place for the byte behind them. At the end of the file there is no such byte and no NUL
is stored: `strtoul` then goes on through what the buffer held before, until it meets a byte that is no
digit, inside the buffer or behind it. `NumberFits` says when all of this is harmless, and
`readUint_inside_iff` that the function does its work exactly then.
-/

namespace Kvs.Server

/-- The work of `read_uint` on the digits `d` with `tail` behind them: no access outside the buffer, the
    number or an error, and the position behind the byte that ended the digits. -/
def ReadsNumber (d tail : List Byte) (r : Option ReadUint) : Prop :=
  ∃ u, r = some u ∧ u.rest = tail.drop 1 ∧
    (digitsValue d ≤ UINT_MAX → u.ret = 0 ∧ u.value = some (digitsValue d)) ∧
    (UINT_MAX < digitsValue d → u.ret ≠ 0)

/-- The digits `d` with `tail` behind them are harmless for a buffer that holds `buf` before the call. -/
def NumberFits (buf d : List Byte) : List Byte → Prop
  | _ :: _ => d.length ≤ 15
  | [] =>
      (∃ b ∈ buf.drop d.length, isDigit b = false) ∧
        (digitsBehind d.length buf = [] ∨ UINT_MAX < digitsValue d ∨
          digitsValue d = 0 ∧ ∀ b ∈ digitsBehind d.length buf, b = 48)

/-- Digits that end the file: `strtoul` must meet a byte of the buffer that is no digit. -/
theorem readUintAt_end {buf d : List Byte} (hd : ∀ b ∈ d, isDigit b = true) (hne : d ≠ [])
    (hroom : d.length ≤ buf.length) :
    readUintAt buf d
      = if (buf.drop d.length).all isDigit then none
        else some { readUint buf d with stored := d ++ buf.drop d.length } := by
  have hstored := readDigits_end hd
  have hlen : (readDigits d).1.length ≤ buf.length := by
    rw [hstored]
    exact hroom
  rw [readUintAt_eq hlen, hstored]
  simp only [scansPast_digits hd hne]

/-- A byte that ends the digits: the number is right as soon as everything has its place. -/
theorem readsNumber_byte_iff {buf d : List Byte} (hd : ∀ b ∈ d, isDigit b = true) {c : Byte}
    (hc : isDigit c = false) (s : Stream) :
    ReadsNumber d (c :: s) (readUintAt buf (d ++ c :: s)) ↔ d.length < buf.length := by
  constructor
  · rintro ⟨u, hu, -⟩
    by_contra hroom
    have hlen : buf.length < (readDigits (d ++ c :: s)).1.length := by
      rw [readDigits_append hd hc, List.length_append, List.length_singleton]
      omega
    rw [readUintAt_overflows hlen] at hu
    exact absurd hu (by simp)
  · intro hroom
    refine ⟨_, readUintAt_digits hd hc hroom s, ?_⟩
    rw [readUint_digits hd hc]
    by_cases hbig : digitsValue d > UINT_MAX
    · rw [if_pos hbig]
      exact ⟨rfl, fun hle => absurd hbig (Nat.not_lt.mpr hle), fun _ => Int.one_ne_zero⟩
    · rw [if_neg hbig]
      exact ⟨rfl, fun _ => ⟨rfl, rfl⟩, fun hlt => absurd hlt hbig⟩

/-- With the digits behind `d` taken along, the result is right only where they make no difference. -/
theorem readUint_behind_iff {d es : List Byte} (hes : ∀ b ∈ es, isDigit b = true) :
    ((digitsValue d ≤ UINT_MAX → digitsValue (d ++ es) = digitsValue d) ∧
      (UINT_MAX < digitsValue d → UINT_MAX < digitsValue (d ++ es))) ↔
      es = [] ∨ UINT_MAX < digitsValue d ∨ digitsValue d = 0 ∧ ∀ b ∈ es, b = 48 := by
  rw [digitsValue_append, digitsValue_behind_iff hes]
  have hpow : 0 < 10 ^ es.length := Nat.pow_pos (by decide)
  have hle : digitsValue d ≤ digitsValue d * 10 ^ es.length := Nat.le_mul_of_pos_right _ hpow
  constructor
  · rintro ⟨hsmall, -⟩
    by_cases hbig : UINT_MAX < digitsValue d
    · exact Or.inr (Or.inl hbig)
    · rcases hsmall (Nat.le_of_not_lt hbig) with h | h
      · exact Or.inl h
      · exact Or.inr (Or.inr h)
  · intro h
    refine ⟨fun hsmall => ?_, fun hbig => by omega⟩
    rcases h with h | h | h
    · exact Or.inl h
    · exact absurd h (Nat.not_lt.mpr hsmall)
    · exact Or.inr h

/-- The end of the file. -/
theorem readsNumber_end_iff {buf d : List Byte} (hd : ∀ b ∈ d, isDigit b = true) (hne : d ≠ []) :
    ReadsNumber d [] (readUintAt buf d) ↔ NumberFits buf d [] := by
  have hes : ∀ b ∈ digitsBehind d.length buf, isDigit b = true :=
    fun b hb => List.mem_takeWhile_imp hb
  have hstop : (buf.drop d.length).all isDigit = false ↔
      ∃ b ∈ buf.drop d.length, isDigit b = false := by simp
  by_cases hroom : d.length ≤ buf.length
  · unfold NumberFits
    rw [readUintAt_end hd hne hroom, ← hstop, ← readUint_behind_iff hes]
    by_cases hall : (buf.drop d.length).all isDigit
    · -- `strtoul` leaves the buffer
      rw [if_pos hall, hall]
      constructor
      · rintro ⟨u, hu, -⟩
        exact absurd hu (by simp)
      · rintro ⟨h, -⟩
        exact absurd h (by simp)
    · rw [if_neg hall, readUint_end hd hne]
      rw [Bool.not_eq_true] at hall
      by_cases hbig : digitsValue (d ++ digitsBehind d.length buf) > UINT_MAX
      · rw [if_pos hbig]
        constructor
        · rintro ⟨u, hu, -, hsmall, -⟩
          obtain rfl := Option.some.inj hu
          exact ⟨hall, fun hle => absurd (hsmall hle).1 Int.one_ne_zero, fun _ => hbig⟩
        · rintro ⟨-, hsmall, -⟩
          refine ⟨_, rfl, rfl, fun hle => ?_, fun _ => Int.one_ne_zero⟩
          rw [hsmall hle] at hbig
          exact absurd hbig (Nat.not_lt.mpr hle)
      · rw [if_neg hbig]
        constructor
        · rintro ⟨u, hu, -, hsmall, hlarge⟩
          obtain rfl := Option.some.inj hu
          exact ⟨hall, fun hle => Option.some.inj (hsmall hle).2, fun hlt => absurd rfl (hlarge hlt)⟩
        · rintro ⟨-, hsmall, hlarge⟩
          exact ⟨_, rfl, rfl, fun hle => ⟨rfl, congrArg some (hsmall hle)⟩,
            fun hlt => absurd (hlarge hlt) hbig⟩
  · -- more digits than bytes
    have hlen : buf.length < (readDigits d).1.length := by
      rw [readDigits_end hd]
      exact Nat.lt_of_not_le hroom
    have hdrop : buf.drop d.length = [] := List.drop_eq_nil_of_le (by omega)
    unfold NumberFits
    rw [readUintAt_overflows hlen, hdrop]
    constructor
    · rintro ⟨u, hu, -⟩
      exact absurd hu (by simp)
    · rintro ⟨⟨b, hb, -⟩, -⟩
      exact absurd hb (by simp)

end Kvs.Server

namespace Kvs

open Server

/-- **When `read_uint` reads a number.** On digits with a byte behind them it does its work exactly when
    there are at most 15 of them. At the end of the file it does exactly when the buffer of 16 bytes holds
    behind the digits a byte that is none, and the digits it holds before that byte do not change the
    number. The server's and the client's copies agree. -/
theorem readUint_inside_iff (buf : List Byte) (hbuf : buf.length = 16) (d : List Byte)
    (hd : ∀ b ∈ d, isDigit b = true) (hne : d ≠ []) (tail : List Byte)
    (htail : ∀ c ∈ tail.head?, isDigit c = false) :
    (ReadsNumber d tail (Server.readUintAt buf (d ++ tail)) ↔ NumberFits buf d tail) ∧
    (ReadsNumber d tail (Client.readUintAt buf (d ++ tail)) ↔ NumberFits buf d tail) := by
  have hserver : ReadsNumber d tail (Server.readUintAt buf (d ++ tail)) ↔ NumberFits buf d tail := by
    cases tail with
    | nil =>
        rw [List.append_nil]
        exact readsNumber_end_iff hd hne
    | cons c s =>
        rw [readsNumber_byte_iff hd (htail c rfl) s, hbuf]
        exact Nat.lt_succ_iff
  rw [Client.readUintAt_copy]
  exact ⟨hserver, hserver⟩

theorem readUint_inside_fifteen :
    ReadsNumber (ascii "000000000000007") (ascii "\n")
      (Server.readUintAt (List.replicate 16 0) (ascii "000000000000007" ++ ascii "\n")) := by
  have hlen : (ascii "000000000000007").length ≤ 15 := by decide +kernel
  have hdigits : ∀ b ∈ ascii "000000000000007", isDigit b = true := by decide +kernel
  have hne : ascii "000000000000007" ≠ [] := by decide +kernel
  have htail : ∀ c ∈ (ascii "\n").head?, isDigit c = false := by decide +kernel
  exact ((readUint_inside_iff (List.replicate 16 0) rfl _ hdigits hne _ htail).1).mpr hlen

/-- **16 digits put the NUL behind the buffer**, although their number is 7. -/
theorem sixteenDigits_outside :
    ¬ ReadsNumber (ascii "0000000000000007") (ascii "\n")
      (Server.readUintAt (List.replicate 16 0) (ascii "0000000000000007" ++ ascii "\n")) := by
  have hout : Server.readUintAt (List.replicate 16 0) (ascii "0000000000000007" ++ ascii "\n") = none :=
    by decide +kernel
  rintro ⟨u, hu, -⟩
  rw [hout] at hu
  exact absurd hu (by simp)

end Kvs
