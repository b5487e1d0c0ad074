import Kvs.Client.Parser
import Kvs.Correctness.Grammar

/-!
# `Correctness.KeyLists` — the two parsers of key lists

`parse_read_delete` of the server and `parse_list` of the client are the same but for the test behind the
loop: the server takes a full array for an error, the client only when the last key was not followed by
the closing bracket. So the two part on the lists that fill the array, and on no other stream
(`parseReadDelete_eq_parseList_iff`).
-/

namespace Kvs.Server

/-- `n` keys, at least one, the closing bracket and a byte that ends the command. -/
def IsFullList (n : Nat) (s : Stream) : Prop :=
  ∃ k keys ch R, (k :: keys).length = n ∧ (∀ t ∈ k :: keys, IsToken MAX_STRING_SIZE t) ∧
    (ch = NL ∨ ch = 0) ∧ s = keyListText (k :: keys) ++ RBRACK :: ch :: R

/-! ## Lists that leave a row free, or that do not end -/

/-- A byte that is no newline is skipped with the rest of its line. -/
theorem cleanup_cons {ch : Byte} (h : ch ≠ NL) (s : Stream) : cleanup (ch :: s) = cleanup s := by
  rw [cleanup, if_neg h]

/-- The closing bracket has been read, and what follows does not end the command: either way the line
    is skipped and 0 returned. -/
theorem closeList_agree {max : Nat} {stored : List CStr} {s : Stream}
    (h : stored.length = max → ∀ ch R, (ch = NL ∨ ch = 0) → s ≠ ch :: R) :
    Client.closeList max 2 stored s = closeList max stored s := by
  unfold Client.closeList closeList
  rw [if_neg (fun hfull => hfull.2 rfl)]
  simp only [Client.rejected_eq]
  by_cases hfull : stored.length = max
  · rw [if_pos hfull]
    cases s with
    | nil => rfl
    | cons ch R =>
        have hch : ¬ (ch = NL ∨ ch = 0) := fun hend => h hfull ch R hend rfl
        have hnl : ch ≠ NL := fun hnl => hch (Or.inl hnl)
        simp only [readTest, Bool.or_eq_true, decide_eq_true_eq, if_neg hch]
        unfold rejected
        rw [cleanup_cons hnl]
  · rw [if_neg hfull]

/-- The two loops agree as long as no list ends in the last row. -/
theorem listLoop_agree {max room : Nat} {output : Int} {stored : List CStr} {s : Stream}
    (hlen : stored.length + room = max) (hout : room = 0 → output ≠ 2) (hfull : ¬ IsFullList room s) :
    Client.listLoop max MAX_STRING_SIZE room output stored s
      = keysLoop max MAX_STRING_SIZE room stored s := by
  induction room generalizing output stored s with
  | zero =>
      -- the last key was followed by a comma, an error for both
      unfold Client.listLoop keysLoop Client.closeList closeList
      rw [if_pos ⟨hlen, hout rfl⟩, if_pos (by simpa using hlen), Client.rejected_eq]
  | succ room ih =>
      unfold Client.listLoop keysLoop
      simp only [Client.readString_eq, Client.rejected_eq]
      split_ifs with hbad hclose
      · rfl
      · rw [hclose]
        refine closeList_agree ?_
        intro hmax ch R hch hrest
        -- the list would have ended in the last row
        obtain ⟨t, d, ht, hd, hs, -⟩ := readString_inv (hclose ▸ (by decide : (0 : Int) ≤ 2))
        rw [hclose] at hd
        obtain rfl : d = RBRACK := by simpa using hd
        rw [hrest] at hs
        refine hfull ⟨t, [], ch, R, ?_, by simpa using ht, hch, hs⟩
        simp at hmax ⊢
        omega
      · obtain ⟨hpos, hone⟩ := not_or.mp hbad
        obtain ⟨t, d, ht, hd, hs, -⟩ := readString_inv (not_lt.mp hpos)
        simp only [List.mem_cons, Prod.mk.injEq, List.not_mem_nil, or_false, hone, hclose, and_false]
          at hd
        refine ih (by simp; omega) (fun _ => hclose) ?_
        rintro ⟨k, keys, ch, R, hkeys, htokens, hch, hrest⟩
        -- the key in front makes a list of one more
        refine hfull ⟨t, k :: keys, ch, R, congrArg (· + 1) hkeys,
          List.forall_mem_cons.mpr ⟨ht, htokens⟩, hch, ?_⟩
        rw [hrest, hd.1] at hs
        rw [hs, keyListText_cons_cons, List.append_assoc, List.cons_append]

/-! ## Lists that fill the array -/

/-- The client's loop over a list whose keys have their rows, up to its closing bracket. -/
theorem listLoop_tokens {max room : Nat} {output : Int} {stored : List CStr} {k : List Byte}
    {keys : List (List Byte)} (htokens : ∀ t ∈ k :: keys, IsToken MAX_STRING_SIZE t)
    (hroom : keys.length < room) (s : Stream) :
    Client.listLoop max MAX_STRING_SIZE room output stored (keyListText (k :: keys) ++ RBRACK :: s)
      = Client.closeList max 2 (stored ++ (k :: keys).map keyStored) s := by
  obtain ⟨hk, hkeys⟩ := List.forall_mem_cons.mp htokens
  clear htokens
  induction keys generalizing k room stored output with
  | nil =>
      obtain ⟨room, rfl⟩ : ∃ n, room = n + 1 := ⟨room - 1, by omega⟩
      have hkey := @readString_token _ _ hk RBRACK 2 (by simp) s
      rw [keyListText, Client.listLoop, Client.readString_eq, hkey]
      rfl
  | cons k' keys ih =>
      obtain ⟨room, rfl⟩ : ∃ n, room = n + 1 := ⟨room - 1, by omega⟩
      obtain ⟨hk', hrest⟩ := List.forall_mem_cons.mp hkeys
      have hkey := @readString_token _ _ hk COMMA 0 (by simp)
        (keyListText (k' :: keys) ++ RBRACK :: s)
      rw [keyListText_cons_cons, List.append_assoc, List.cons_append, Client.listLoop,
        Client.readString_eq, hkey]
      show Client.listLoop max MAX_STRING_SIZE room 0 (stored ++ [keyStored k]) _ = _
      rw [ih (Nat.lt_of_succ_lt_succ hroom) hk' hrest]
      simp

/-- A list that fills the array: the server returns 0, the client the number of its keys. -/
theorem full_list_num {maxKeys : Nat} {s : Stream} (h : IsFullList maxKeys s) :
    (parseReadDelete maxKeys MAX_STRING_SIZE (LBRACK :: s)).num = 0 ∧
      (Client.parseList maxKeys MAX_STRING_SIZE (LBRACK :: s)).num = maxKeys := by
  obtain ⟨k, keys, ch, R, hlen, htokens, hch, rfl⟩ := h
  have hroom : keys.length < maxKeys := by
    rw [List.length_cons] at hlen
    omega
  have hserver := @keysLoop_tokens maxKeys MAX_STRING_SIZE maxKeys [] k keys htokens hroom (ch :: R)
  have hclient := @listLoop_tokens maxKeys maxKeys 2 [] k keys htokens hroom (ch :: R)
  have hmap : ([] ++ (k :: keys).map keyStored).length = maxKeys := by simpa using hlen
  constructor
  · show (keysLoop maxKeys MAX_STRING_SIZE maxKeys [] _).num = 0
    rw [hserver, closeList, if_pos hmap]
    rfl
  · show (Client.listLoop maxKeys MAX_STRING_SIZE maxKeys 2 [] _).num = maxKeys
    rw [hclient, Client.closeList, if_neg (fun hfull => hfull.2 rfl)]
    simp only [readTest, Bool.or_eq_true, decide_eq_true_eq, if_pos hch]
    exact hmap

/-! ## The parsers -/

/-- **The parsers of key lists agree except on the lists that fill the array.** These the client accepts
    and the server rejects; on every other stream the two return the same number, store the same keys and
    leave the same input. -/
theorem parseReadDelete_eq_parseList_iff {maxKeys : Nat} (hmax : 1 ≤ maxKeys) (s : Stream) :
    (parseReadDelete maxKeys MAX_STRING_SIZE s = Client.parseList maxKeys MAX_STRING_SIZE s ↔
      ¬ ∃ s', s = LBRACK :: s' ∧ IsFullList maxKeys s') ∧
    ∀ s', s = LBRACK :: s' → IsFullList maxKeys s' →
      (parseReadDelete maxKeys MAX_STRING_SIZE s).num = 0 ∧
        (Client.parseList maxKeys MAX_STRING_SIZE s).num = maxKeys := by
  refine ⟨⟨?_, ?_⟩, ?_⟩
  · rintro heq ⟨s', rfl, hfull⟩
    obtain ⟨hserver, hclient⟩ := full_list_num hfull
    rw [heq, hclient] at hserver
    omega
  · intro hnot
    unfold parseReadDelete Client.parseList
    cases s with
    | nil => rfl
    | cons b s =>
        simp only [readTest, Client.rejected_eq]
        by_cases hb : b = LBRACK
        · have hfull : ¬ IsFullList maxKeys s := fun hfull => hnot ⟨s, by rw [hb], hfull⟩
          simp only [hb, decide_true, Bool.not_true, Bool.false_eq_true, if_false]
          exact (listLoop_agree (Nat.zero_add _) (by omega) hfull).symm
        · simp [hb]
  · rintro s' rfl hfull
    exact full_list_num hfull

theorem parseReadDelete_eq_parseList_oneFree :
    parseReadDelete 2 MAX_STRING_SIZE (ascii "[a]\n")
      = Client.parseList 2 MAX_STRING_SIZE (ascii "[a]\n") := by
  refine (parseReadDelete_eq_parseList_iff (by decide) _).1.mpr ?_
  rintro ⟨s, hs, k, keys, ch, R, hlen, -, -, rfl⟩
  -- two keys would have a comma between them
  obtain ⟨k', rfl⟩ := List.length_eq_one_iff.mp (Nat.succ.inj hlen)
  have hcomma : COMMA ∈ LBRACK :: (keyListText [k, k'] ++ RBRACK :: ch :: R) := by
    simp [keyListText]
  rw [← hs] at hcomma
  exact absurd hcomma (by decide)

/-- The client asks for one key at most, and a list of one key is what it is given. -/
theorem parseReadDelete_ne_parseList :
    parseReadDelete 1 MAX_STRING_SIZE (ascii "[a]\n")
      ≠ Client.parseList 1 MAX_STRING_SIZE (ascii "[a]\n") := by
  decide

end Kvs.Server
