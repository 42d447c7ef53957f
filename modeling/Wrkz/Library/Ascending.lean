import Mathlib

/-!
Entries in strictly ascending order of their numbers, and an entry put in its place.
-/

set_option autoImplicit false

namespace Library

variable {α : Type} {number : α → Nat}

def Ascending (number : α → Nat) (l : List α) : Prop := l.Pairwise fun a b => number a < number b

/-- Before the first entry whose number is not below that of `a`. -/
def placeOf (number : α → Nat) (a : α) (l : List α) : Nat :=
  l.findIdx fun b => number a ≤ number b

def putInPlace (number : α → Nat) (a : α) (l : List α) : List α :=
  l.insertIdx (placeOf number a l) a

theorem placeOf_le (a : α) (l : List α) : placeOf number a l ≤ l.length :=
  List.findIdx_le_length

theorem putInPlace_length (a : α) (l : List α) : (putInPlace number a l).length = l.length + 1 :=
  List.length_insertIdx_of_le_length (placeOf_le a l) a

theorem putInPlace_getElem? (a : α) (l : List α) :
    (putInPlace number a l)[placeOf number a l]? = some a := by
  rw [putInPlace, List.getElem?_insertIdx_self, if_pos (placeOf_le a l)]

theorem putInPlace_cons (a b : α) (l : List α) :
    putInPlace number a (b :: l) =
      if number a ≤ number b then a :: b :: l else b :: putInPlace number a l := by
  unfold putInPlace placeOf
  rw [List.findIdx_cons]
  by_cases h : number a ≤ number b <;> simp [h]

theorem mem_putInPlace {a b : α} {l : List α} : b ∈ putInPlace number a l ↔ b = a ∨ b ∈ l :=
  List.mem_insertIdx (placeOf_le a l)

theorem Ascending.putInPlace {a : α} {l : List α} (h : Ascending number l)
    (hne : ∀ b ∈ l, number b ≠ number a) : Ascending number (putInPlace number a l) := by
  induction l with
  | nil => exact List.pairwise_singleton _ a
  | cons b l ih =>
    obtain ⟨hb,hl⟩ := List.pairwise_cons.1 h
    have hba := hne b (by simp)
    rw [putInPlace_cons]
    split
    · next hle =>
      refine List.pairwise_cons.2 ⟨?_,h⟩
      intro c hc
      rcases List.mem_cons.1 hc with rfl | hc
      · omega
      · have := hb c hc
        omega
    · next hlt =>
      refine List.pairwise_cons.2 ⟨?_,ih hl fun c hc => hne c (by simp [hc])⟩
      intro c hc
      rcases mem_putInPlace.1 hc with rfl | hc
      · omega
      · exact hb c hc

end Library
