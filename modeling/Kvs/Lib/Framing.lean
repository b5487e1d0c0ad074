import Mathlib

/-!
# `Lib.Framing` — messages in a stream

Messages are written into a stream one after the other, and each starts with a symbol that it does not
hold further on. The stream says nothing else about where they end. Whoever has read part of it stands
at the start of a message exactly when a starting symbol comes next.
-/

namespace Framing

variable {α : Type*} (starts : α → Prop)

/-- A message: a starting symbol, and none behind it. -/
def IsFrame (message : List α) : Prop :=
  ∃ a rest, message = a :: rest ∧ starts a ∧ ∀ b ∈ rest, ¬ starts b

variable {starts}

/-- In a message the starting symbol comes first. -/
theorem IsFrame.start_first {message before rest : List α} {a : α} (h : IsFrame starts message)
    (hmessage : message = before ++ a :: rest) (ha : starts a) : before = [] := by
  obtain ⟨b, tail, rfl, -, htail⟩ := h
  cases before with
  | nil => rfl
  | cons c before =>
      obtain ⟨-, rfl⟩ := List.cons.inj hmessage
      exact absurd ha (htail a (by simp))

/-- **A starting symbol is the start of a message.** What was read before it are whole messages. -/
theorem at_boundary {messages : List (List α)} (hframes : ∀ m ∈ messages, IsFrame starts m)
    {before rest : List α} {a : α} (hstream : messages.flatten = before ++ a :: rest) (ha : starts a) :
    ∃ read message unread, messages = read ++ message :: unread ∧ before = read.flatten ∧
      a :: rest = message ++ unread.flatten := by
  induction messages generalizing before with
  | nil => exact absurd hstream (by simp)
  | cons message messages ih =>
      rw [List.flatten_cons] at hstream
      rcases List.append_eq_append_iff.mp hstream with ⟨later, rfl, hlater⟩ | ⟨later, hmessage, hlater⟩
      · -- the symbol comes behind the first message
        obtain ⟨read, m, unread, rfl, rfl, hrest⟩ := ih (fun m hm => hframes m (by simp [hm])) hlater
        exact ⟨message :: read, m, unread, rfl, rfl, hrest⟩
      · cases later with
        | nil =>
            have hnext : messages.flatten = [] ++ a :: rest := hlater.symm
            obtain ⟨read, m, unread, rfl, hread, hrest⟩ := ih (fun m hm => hframes m (by simp [hm])) hnext
            refine ⟨message :: read, m, unread, rfl, ?_, hrest⟩
            rw [List.flatten_cons, ← hread, List.append_nil, hmessage, List.append_nil]
        | cons b later =>
            obtain ⟨rfl, hrest⟩ := List.cons.inj hlater
            obtain rfl := (hframes message (by simp)).start_first hmessage ha
            exact ⟨[], message, messages, rfl, rfl, by rw [hmessage, List.nil_append, hlater]⟩

end Framing
