import Mathlib.Data.List.Basic

/-! Framings of a stream: how messages are taken off the front of a list, one after another.

    A framing is stable when a message that can be taken can still be taken with more behind it. That
    is what makes the way a stream is cut into pieces irrelevant: `split_append` and `feeds_append`
    read a stream in two pieces, and `take_of_cut` says nothing can be taken early. `At` says a
    suffix of a stream starts where a message starts. `cut` groups what was taken into chains, for a
    framing in which one message may come as several. -/

namespace Barnacle.Lib

variable {α μ σ : Type}

/-- How the first message is taken off a list: the message and what is left. -/
structure Framing (α μ : Type) where
  take : List α → Option (μ × List α)
  takes : ∀ {b m rest}, take b = some (m, rest) → ∃ w, w ≠ [] ∧ b = w ++ rest
  stable : ∀ {b m rest} (x), take b = some (m, rest) → take (b ++ x) = some (m, rest ++ x)

namespace Framing

variable (F : Framing α μ)

def splitLoop : Nat → List α → List (μ × List α) × List α
  | 0, b => ([], b)
  | n + 1, b =>
    match F.take b with
    | none => ([], b)
    | some (m, rest) =>
      let r := splitLoop n rest
      ((m, b.take (b.length - rest.length)) :: r.1, r.2)

/-- Every message of a list, each with its own bytes, and what is left after them. -/
def split (b : List α) : List (μ × List α) × List α := F.splitLoop b.length b

variable {F} {b w rest x s v : List α} {m : μ}

theorem take_length_lt (h : F.take b = some (m, rest)) : rest.length < b.length := by
  obtain ⟨w, hw, rfl⟩ := F.takes h
  have := List.length_pos_of_ne_nil hw
  rw [List.length_append]; omega

theorem splitLoop_fuel : ∀ {n : Nat} {b : List α}, b.length ≤ n → F.splitLoop n b = F.split b
  | 0, b, h => by rw [split, Nat.le_zero.mp h]
  | n + 1, b, h => by
    rcases hb : b.length with _ | k
    · obtain rfl := List.eq_nil_of_length_eq_zero hb
      rcases ht : F.take [] with _ | ⟨m, rest⟩
      · rw [split, splitLoop, ht]; rfl
      · exact absurd (take_length_lt ht) (Nat.not_lt_zero _)
    · rw [split, hb, splitLoop, splitLoop]
      rcases ht : F.take b with _ | ⟨m, rest⟩
      · rfl
      · have hlt := take_length_lt ht
        simp only
        rw [splitLoop_fuel (n := n) (by omega), splitLoop_fuel (n := k) (by omega)]
termination_by n => n

theorem split_none (h : F.take b = none) : F.split b = ([], b) := by
  rw [split]
  rcases b.length with _ | n
  · rfl
  · rw [splitLoop, h]

theorem split_some (h : F.take (w ++ rest) = some (m, rest)) :
    F.split (w ++ rest) = ((m, w) :: (F.split rest).1, (F.split rest).2) := by
  have hlt := take_length_lt h
  obtain ⟨n, hn⟩ : ∃ n, (w ++ rest).length = n + 1 := ⟨_, (Nat.succ_pred (by omega)).symm⟩
  rw [split, hn, splitLoop, h]
  simp only
  rw [splitLoop_fuel (by omega)]
  simp

/-- What is left after the messages holds no message. -/
theorem take_split_rest (b : List α) : F.take (F.split b).2 = none := by
  rcases h : F.take b with _ | ⟨m, rest⟩
  · rw [split_none h]; exact h
  · have hlt := take_length_lt h
    obtain ⟨w, -, rfl⟩ := F.takes h
    rw [split_some h]
    exact take_split_rest rest
termination_by b.length

/-- Nothing is lost: the messages' bytes and the rest are the list. -/
theorem split_join (b : List α) : ((F.split b).1.map Prod.snd).flatten ++ (F.split b).2 = b := by
  rcases h : F.take b with _ | ⟨m, rest⟩
  · rw [split_none h]; rfl
  · have hlt := take_length_lt h
    obtain ⟨w, -, rfl⟩ := F.takes h
    rw [split_some h]
    simp [split_join rest]
termination_by b.length

/-- A list read in two pieces: the messages of the first, then those of its rest with the second. -/
theorem split_append (b x : List α) :
    F.split (b ++ x) =
      ((F.split b).1 ++ (F.split ((F.split b).2 ++ x)).1, (F.split ((F.split b).2 ++ x)).2) := by
  rcases h : F.take b with _ | ⟨m, rest⟩
  · rw [split_none h]; rfl
  · have hlt := take_length_lt h
    obtain ⟨w, -, rfl⟩ := F.takes h
    have hx := F.stable x h
    rw [List.append_assoc] at hx ⊢
    rw [split_some hx, split_some h, split_append rest x]
    rfl
termination_by b.length

theorem split_ne_nil (b : List α) : ∀ mw ∈ (F.split b).1, mw.2 ≠ [] := by
  rcases h : F.take b with _ | ⟨m, rest⟩
  · rw [split_none h]; simp
  · have hlt := take_length_lt h
    obtain ⟨w, hw, rfl⟩ := F.takes h
    rw [split_some h]
    rintro mw (_ | ⟨_, hm⟩)
    · exact hw
    · exact split_ne_nil rest mw hm
termination_by b.length

/-- A proper prefix of a whole message cannot be taken. -/
theorem take_of_cut (h : F.take (b ++ x) = some (m, [])) (hx : x ≠ []) : F.take b = none := by
  rcases hb : F.take b with _ | ⟨m', rest⟩
  · rfl
  · rw [F.stable x hb] at h
    simp only [Option.some.injEq, Prod.mk.injEq, List.append_eq_nil_iff] at h
    exact absurd h.2.2 hx

/-! ### Feeding a stream in pieces -/

/-- Hand the messages that `view ++ piece` completes to `f`, and keep the rest. -/
def feeds (f : σ → μ → σ) (st : σ × List α) (piece : List α) : σ × List α :=
  let r := F.split (st.2 ++ piece)
  ((r.1.map Prod.fst).foldl f st.1, r.2)

/-- The way a stream is cut into pieces does not matter. -/
theorem feeds_append (f : σ → μ → σ) (st : σ × List α) (p q : List α) :
    F.feeds f (F.feeds f st p) q = F.feeds f st (p ++ q) := by
  simp only [feeds]
  rw [← List.append_assoc, split_append (st.2 ++ p) q, List.map_append, List.foldl_append]

/-! ### Message boundaries -/

variable (F) in
/-- `v` is what is left of the stream `s` after some of its messages. -/
def At (s v : List α) : Prop := ∃ ms, F.split s = (ms ++ (F.split v).1, (F.split v).2)

theorem At.refl : F.At s s := ⟨[], by simp⟩

theorem At.append (h : F.At s v) (x : List α) : F.At (s ++ x) (v ++ x) := by
  obtain ⟨ms, h⟩ := h
  refine ⟨ms, ?_⟩
  rw [split_append s, split_append v, h, List.append_assoc]

theorem At.take (h : F.At s v) (ht : F.take v = some (m, rest)) :
    ∃ ms w, v = w ++ rest ∧ F.split s = (ms ++ (m, w) :: (F.split rest).1, (F.split rest).2) := by
  obtain ⟨ms, h⟩ := h
  obtain ⟨w, -, rfl⟩ := F.takes ht
  exact ⟨ms, w, rfl, by rw [h, split_some ht]⟩

theorem At.next (h : F.At s v) (ht : F.take v = some (m, rest)) : F.At s rest := by
  obtain ⟨ms, w, -, h⟩ := h.take ht
  exact ⟨ms ++ [(m, w)], by rw [h]; simp⟩

end Framing

/-! ### Chains -/

section Chains
variable {β : Type}

/-- Cut a list behind every element that is not to be continued. A chain the list breaks off in is
    left out. -/
def cut (more : α → Bool) : List α → List (List α)
  | [] => []
  | x :: xs =>
    if more x then
      match cut more xs with
      | [] => []
      | c :: cs => (x :: c) :: cs
    else [x] :: cut more xs

/-- A whole chain: every element is to be continued but the last. -/
def Whole (more : α → Bool) : List α → Prop
  | [] => False
  | x :: xs => if more x then Whole more xs else xs = []

variable {more : α → Bool}

/-- The first chain stands in front of the others. -/
theorem cut_cons {xs : List α} : ∀ {c : List α} {cs : List (List α)}, cut more xs = c :: cs →
    Whole more c ∧ ∃ rest, xs = c ++ rest ∧ cut more rest = cs := by
  induction xs with
  | nil =>
    intro c cs h
    cases h
  | cons x xs ih =>
    intro c cs h
    rw [cut] at h
    split_ifs at h with hx
    · rcases hc : cut more xs with _ | ⟨c', cs'⟩
      · rw [hc] at h
        cases h
      · rw [hc] at h
        cases h
        obtain ⟨hw, rest, rfl, hrest⟩ := ih hc
        exact ⟨by rw [Whole, if_pos hx]; exact hw, rest, rfl, hrest⟩
    · cases h
      exact ⟨by rw [Whole, if_neg hx], xs, rfl, rfl⟩

/-- Where a list is cut depends on what is looked at. -/
theorem cut_map (f : β → α) (xs : List β) :
    cut more (xs.map f) = (cut (more ∘ f) xs).map (List.map f) := by
  induction xs with
  | nil => rfl
  | cons x xs ih =>
    rw [List.map_cons, cut, cut, ih, Function.comp_apply]
    split_ifs
    · rcases cut (more ∘ f) xs with _ | ⟨c, cs⟩ <;> rfl
    · rfl

end Chains

end Barnacle.Lib
