/-!
# Trees of cells

A complete binary tree holds its cells in its leaves. The low bit of an address chooses the branch
at the root, the next bit the branch below it, and so on, so that an address is taken modulo the
number of cells by itself. A tree with equal cells shares all its branches, so it takes no more room
than its depth.
-/

namespace HighAsm

inductive CellTree (α : Type) : Nat → Type
  | leaf (value : α) : CellTree α 0
  | node {depth : Nat} (even odd : CellTree α depth) : CellTree α (depth + 1)

namespace CellTree

variable {α : Type}

def fill (value : α) : (depth : Nat) → CellTree α depth
  | 0 => leaf value
  | depth + 1 =>
    let branch := fill value depth
    node branch branch

def get : {depth : Nat} → CellTree α depth → Nat → α
  | _, leaf value, _ => value
  | _, node even odd, address =>
    if address % 2 = 0 then even.get (address / 2) else odd.get (address / 2)

def set : {depth : Nat} → CellTree α depth → Nat → α → CellTree α depth
  | _, leaf _, _, value => leaf value
  | _, node even odd, address, value =>
    if address % 2 = 0 then node (even.set (address / 2) value) odd
    else node even (odd.set (address / 2) value)

@[simp]
theorem get_fill (value : α) (depth address : Nat) : (fill value depth).get address = value := by
  induction depth generalizing address with
  | zero => rfl
  | succ depth ih => simp [fill, get, ih]

theorem get_set {depth : Nat} (t : CellTree α depth) (address other : Nat) (value : α) :
    (t.set address value).get other =
      if address % Nat.pow 2 depth = other % Nat.pow 2 depth then value else t.get other := by
  induction t generalizing address other with
  | leaf _ => simp [set, get, Nat.mod_one]
  | node even odd ihEven ihOdd =>
    rename_i depth
    have twice : Nat.pow 2 (depth + 1) = 2 * Nat.pow 2 depth := Nat.mul_comm _ _
    have split (n : Nat) :
        n % Nat.pow 2 (depth + 1) = n % 2 + 2 * (n / 2 % Nat.pow 2 depth) := by
      rw [twice, Nat.mod_mul]
    have parity (n : Nat) : n % 2 = 0 ∨ n % 2 = 1 := Nat.mod_two_eq_zero_or_one n
    rw [split address, split other]
    rcases parity address with hAddress | hAddress <;> rcases parity other with hOther | hOther <;>
      grind [set, get]

end CellTree

end HighAsm
