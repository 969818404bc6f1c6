import Mathlib.Data.List.Basic
import Mathlib.Data.List.Perm.Basic
import Mathlib.Data.List.Nodup
import Mathlib.Tactic.Linarith

/-! Linked lists through link functions: `next` and `prev` give the fields of the node at an address,
    and address `0` is the null link. The predicates say that the links spell out a given list of
    addresses; the lemmas say what unlinking a node and pushing one at the front do to that list.
    Only the link values at the list's own nodes are ever constrained, so the rules apply whatever
    else the same writes changed. -/

namespace Barnacle.Lib

/-- The links from the head spell out the list: singly linked, ended by `0`. -/
def SList (next : Nat → Nat) : List Nat → Prop
  | [] => True
  | x :: xs => next x = xs.headD 0 ∧ SList next xs

/-- Doubly linked; `p` is what the first node's `prev` holds. -/
def DList (next prev : Nat → Nat) : Nat → List Nat → Prop
  | _, [] => True
  | p, x :: xs => prev x = p ∧ next x = xs.headD 0 ∧ DList next prev x xs

theorem SList.congr {next next' : Nat → Nat} : ∀ {l : List Nat}, (∀ x ∈ l, next' x = next x) →
    SList next l → SList next' l
  | [], _, _ => trivial
  | x :: xs, h, ⟨hn, hs⟩ =>
    ⟨by rw [h x (by simp), hn], SList.congr (fun y hy => h y (by simp [hy])) hs⟩

theorem DList.congr {next prev next' prev' : Nat → Nat} : ∀ {p : Nat} {l : List Nat},
    (∀ x ∈ l, next' x = next x ∧ prev' x = prev x) → DList next prev p l → DList next' prev' p l
  | _, [], _, _ => trivial
  | p, x :: xs, h, ⟨hp, hn, hd⟩ =>
    ⟨by rw [(h x (by simp)).2, hp], by rw [(h x (by simp)).1, hn],
      DList.congr (fun y hy => h y (by simp [hy])) hd⟩

/-- The two links of a node in the middle. -/
theorem DList.at_mid {next prev : Nat → Nat} : ∀ {p : Nat} {l₁ : List Nat} {x : Nat} {l₂ : List Nat},
    DList next prev p (l₁ ++ x :: l₂) → prev x = l₁.getLastD p ∧ next x = l₂.headD 0
  | _, [], _, _, ⟨hp, hn, _⟩ => ⟨hp, hn⟩
  | p, y :: l₁, x, l₂, ⟨_, _, hd⟩ => by
    have h := DList.at_mid hd
    exact ⟨by rw [h.1, List.getLastD_cons], h.2⟩

theorem headD_mem_or : ∀ (l : List Nat) (d : Nat), l.headD d = d ∨ l.headD d ∈ l
  | [], _ => Or.inl rfl
  | _ :: _, _ => Or.inr (by simp)

theorem getLastD_mem_or : ∀ (l : List Nat) (d : Nat), l.getLastD d = d ∨ l.getLastD d ∈ l
  | [], _ => Or.inl rfl
  | a :: l, d => by
    rw [List.getLastD_cons]
    rcases getLastD_mem_or l a with h | h
    · rw [h]; exact Or.inr (List.mem_cons_self ..)
    · exact Or.inr (List.mem_cons_of_mem _ h)

/-- Unlinking `x`: its predecessor's `next` and its successor's `prev` are redirected around it, and
    every other link of the list is as it was. -/
theorem DList.unlink {next prev next' prev' : Nat → Nat} : ∀ {p : Nat} {l₁ : List Nat} {x : Nat}
    {l₂ : List Nat}, DList next prev p (l₁ ++ x :: l₂) → (p :: (l₁ ++ x :: l₂)).Nodup →
    0 ∉ l₁ ++ x :: l₂ →
    (∀ y ∈ l₁ ++ l₂, y ≠ prev x → next' y = next y) →
    (prev x ∈ l₁ ++ l₂ → next' (prev x) = next x) →
    (∀ y ∈ l₁ ++ l₂, y ≠ next x → prev' y = prev y) →
    (next x ∈ l₁ ++ l₂ → prev' (next x) = prev x) →
    DList next' prev' p (l₁ ++ l₂)
  | _, [], x, [], _, _, _, _, _, _, _ => trivial
  | p, [], x, z :: zs, ⟨hp, hn, hpz, hnz, hd⟩, hnd, _, hne, _, hpr, hpx => by
    simp only [List.nil_append, List.nodup_cons, List.mem_cons, not_or, List.headD_cons] at *
    rw [hp, hn] at *
    refine ⟨hpx (Or.inl rfl), by rw [hne z (Or.inl rfl) (fun h => hnd.1.2.1 h.symm), hnz],
      DList.congr (fun y hy => ⟨hne y (Or.inr hy) ?_, hpr y (Or.inr hy) ?_⟩) hd⟩
    · rintro rfl; exact hnd.1.2.2 hy
    · rintro rfl; exact hnd.2.2.1 hy
  | p, w :: l₁, x, l₂, ⟨hp, hn, hd⟩, hnd, h0, hne, hnx', hpr, hpx' => by
    obtain ⟨hpx, hnx⟩ := DList.at_mid hd
    have hnd' : (w :: (l₁ ++ x :: l₂)).Nodup := (List.nodup_cons.mp hnd).2
    have hw : w ∉ l₁ ++ x :: l₂ := (List.nodup_cons.mp hnd').1
    have hwn : w ≠ next x := by
      rw [hnx]
      rcases headD_mem_or l₂ 0 with h | h
      · rw [h]; rintro rfl; exact h0 (by simp)
      · rintro rfl; exact hw (List.mem_append_right _ (List.mem_cons_of_mem _ h))
    have sub : ∀ y ∈ l₁ ++ l₂, y ∈ w :: l₁ ++ l₂ := fun y hy => List.mem_cons_of_mem _ hy
    refine ⟨by rw [hpr w (by simp) hwn, hp], ?_, DList.unlink hd hnd' (fun h => h0 (by simp [h]))
      (fun y hy => hne y (sub y hy)) (fun h => hnx' (sub _ h))
      (fun y hy => hpr y (sub y hy)) (fun h => hpx' (sub _ h))⟩
    cases l₁ with
    | nil =>
      have hwx : prev x = w := hpx
      have := hnx' (by rw [hwx]; simp)
      rw [hwx, hnx] at this
      exact this
    | cons v vs =>
      rw [hne w (by simp) ?_, hn]
      · rfl
      · rw [hpx, List.getLastD_cons]
        rcases getLastD_mem_or vs v with h | h
        · rw [h]; rintro rfl; exact hw (by simp)
        · rintro rfl; exact hw (List.mem_append_left _ (List.mem_cons_of_mem _ h))

/-- Pushing `x` in front: it takes over the head, and the old head points back at it. -/
theorem DList.push {next prev next' prev' : Nat → Nat} {l : List Nat} {x : Nat}
    (h : DList next prev 0 l) (hnd : l.Nodup) (hp : prev' x = 0) (hn : next' x = l.headD 0)
    (hne : ∀ y ∈ l, next' y = next y) (hpr : ∀ y ∈ l, y ≠ l.headD 0 → prev' y = prev y)
    (hpx : l.headD 0 ∈ l → prev' (l.headD 0) = x) : DList next' prev' 0 (x :: l) := by
  refine ⟨hp, hn, ?_⟩
  cases l with
  | nil => trivial
  | cons z zs =>
    obtain ⟨-, hnz, hd⟩ := h
    have hz : z ∉ zs := (List.nodup_cons.mp hnd).1
    refine ⟨hpx (by simp), by rw [hne z (by simp), hnz],
      DList.congr (fun y hy => ⟨hne y (by simp [hy]), hpr y (by simp [hy]) ?_⟩) hd⟩
    rintro rfl; exact hz hy

end Barnacle.Lib
