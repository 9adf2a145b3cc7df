import Ext4Fuse.Library.Owned
import Ext4Fuse.Library.Partial

/-! Doubly linked rings as owned cells. A chain is a row of nodes between two that it does not own; a ring is a chain closed on
itself, and may be entered at any of its nodes. -/
namespace Ext4Fuse.Library.Rings
open Owned Partial

structure Links (ι : Type) where
  prev : ι
  next : ι
  deriving DecidableEq

variable {ι : Type} {p q m n x : ι} {xs ys zs : List ι}

def first (n : ι) : List ι → ι
  | [] => n
  | x::_ => x

def last (p : ι) : List ι → ι
  | [] => p
  | x::xs => last x xs

theorem first_append (n : ι) (xs ys : List ι) : first n (xs ++ ys) = first (first n ys) xs := by cases xs <;> rfl

theorem last_append (p : ι) (xs ys : List ι) : last p (xs ++ ys) = last (last p xs) ys := by
  induction xs generalizing p with
  | nil => rfl
  | cons x xs ih => exact ih x

/-- The nodes of a row with `p` before it and `n` after it. -/
def chain (p : ι) : List ι → ι → Multiset (ι × Links ι)
  | [], _ => 0
  | x::xs, n => {(x,⟨p,first n xs⟩)} + chain x xs n

def ring : List ι → Multiset (ι × Links ι)
  | [] => 0
  | x::xs => chain (last x xs) (x::xs) x

theorem chain_append (p : ι) (xs ys : List ι) (n : ι) : chain p (xs ++ ys) n = chain p xs (first n ys) + chain (last p xs) ys n := by
  induction xs generalizing p with
  | nil => exact (zero_add _).symm
  | cons x xs ih => rw [List.cons_append,chain,chain,ih,first_append,last,add_assoc]

/-- A ring may be entered at any of its nodes. -/
theorem ring_rotate (xs ys : List ι) : ring (xs ++ ys) = ring (ys ++ xs) := by
  cases xs with
  | nil => rw [List.append_nil,List.nil_append]
  | cons x xs =>
    cases ys with
    | nil => rw [List.append_nil,List.nil_append]
    | cons y ys =>
      rw [List.cons_append,List.cons_append,ring,ring,← List.cons_append,← List.cons_append,chain_append,chain_append,last_append,
        last_append,add_comm]
      rfl

theorem chain_single (p x n : ι) : chain p [x] n = {(x,⟨p,n⟩)} := add_zero _

theorem ring_cons (x : ι) (xs : List ι) : ring (x::xs) = chain (last x xs) (x::xs) x := rfl

theorem ring_split (x : ι) (xs : List ι) : ring (x::xs) = {(x,⟨last x xs,first x xs⟩)} + chain x xs x := rfl

theorem chain_fst (p : ι) (xs : List ι) (n : ι) : (chain p xs n).map Prod.fst = (xs : Multiset ι) := by
  induction xs generalizing p with
  | nil => rfl
  | cons x xs ih =>
    rw [chain,Multiset.map_add,ih]
    rfl

theorem ring_fst (xs : List ι) : (ring xs).map Prod.fst = (xs : Multiset ι) := by
  cases xs with
  | nil => rfl
  | cons x xs => exact chain_fst ..

/-- The nodes of a ring are different ones. -/
theorem ring_nodup {memory : ι → Option (Links ι)} (owns : Owns memory (ring xs)) : xs.Nodup := by
  have apart := owns.apart
  rw [ring_fst,Multiset.coe_nodup] at apart
  exact apart

theorem mem_ring {links : Links ι} (member : (x,links) ∈ ring xs) : x ∈ xs := by
  have there := Multiset.mem_map_of_mem Prod.fst member
  rw [ring_fst] at there
  exact there

theorem exists_last (xs : List ι) (some : xs ≠ []) (p : ι) : ∃ ys, xs = ys ++ [last p xs] := by
  obtain ⟨ys,y,rfl⟩ := (List.eq_nil_or_concat xs).resolve_left some
  refine ⟨ys,?_⟩
  rw [List.concat_eq_append,last_append]
  rfl

variable [DecidableEq ι] {memory : ι → Option (Links ι)} {rest : Multiset (ι × Links ι)}

def setNext (memory : ι → Option (Links ι)) (p n : ι) : Option (ι → Option (Links ι)) :=
  (memory p).map fun links => Function.update memory p (some {links with next := n})

def setPrev (memory : ι → Option (Links ι)) (n p : ι) : Option (ι → Option (Links ι)) :=
  (memory n).map fun links => Function.update memory n (some {links with prev := p})

/-- The last node of a row is made to point to another one after it. -/
theorem setNext_chain (owns : Owns memory (chain q (xs ++ [p]) m + rest)) (n : ι) :
    Yields (setNext memory p n) fun memory' => Owns memory' (chain q (xs ++ [p]) n + rest) := by
  have cut (n : ι) : chain q (xs ++ [p]) n + rest = {(p,⟨last q xs,n⟩)} + (chain q xs p + rest) := by
    rw [chain_append]
    simp only [chain,first]
    abel
  rw [cut] at owns ⊢
  rw [setNext,owns.read]
  exact yields_some (owns.write _)

/-- The first node of a row is made to point to another one before it. -/
theorem setPrev_chain (owns : Owns memory (chain q (n::xs) m + rest)) (p : ι) :
    Yields (setPrev memory n p) fun memory' => Owns memory' (chain p (n::xs) m + rest) := by
  rw [chain,add_assoc] at owns ⊢
  rw [setPrev,owns.read]
  exact yields_some (owns.write _)

/-- The last node of a ring, reached as the one before the first, is made to point to another one. -/
theorem setNext_last (owns : Owns memory (chain q (x::xs) m + rest)) (n : ι) :
    Yields (setNext memory (last x xs) n) fun memory' => Owns memory' (chain q (x::xs) n + rest) := by
  obtain ⟨ys,split⟩ := exists_last (x::xs) (List.cons_ne_nil x xs) x
  have same : last x (x::xs) = last x xs := rfl
  rw [same] at split
  rw [split] at owns ⊢
  exact setNext_chain owns n

omit [DecidableEq ι] in
theorem ring_read (owns : Owns memory (ring (x::xs) + rest)) : memory x = some ⟨last x xs,first x xs⟩ := by
  rw [ring_split,add_assoc] at owns
  exact owns.read

omit [DecidableEq ι] in
/-- The node after the entry of a ring is another one, if there is another one. -/
theorem first_ne (owns : Owns memory (ring (x::xs) + rest)) : first x xs = x ↔ xs = [] := by
  constructor
  · intro same
    cases xs with
    | nil => rfl
    | cons y ys =>
      rw [ring_split,add_assoc] at owns
      refine absurd same (owns.apart_from (s := ⟨x,first x ys⟩) ?_)
      rw [chain]
      simp [first]
  · rintro rfl
    rfl

end Ext4Fuse.Library.Rings
