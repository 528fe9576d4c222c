import HighAsm.Proofs.CallArguments

/-!
# Counted loops around a position

The machine keeps a counter for every counted loop that control is in. Which loops these are can be
read off the code: reading on from the start of a routine, a head opens a loop, and the end of a
round closes the last one that is open (`Program.loopsAt`). Structures are nested, so behind a text
the same loops are open as before it.
-/

namespace HighAsm

open List

/-- The heads of the counted loops around a position, the innermost first, in a routine that begins
at another one. -/
def Program.loopsAt (p : Program) (start : Nat) : Nat → List Nat
  | 0 => []
  | k + 1 =>
    if k < start then []
    else
      match p.code[k]? with
      | some (.loopHead _) => k :: p.loopsAt start k
      | some (.loopNext _) => (p.loopsAt start k).tail
      | _ => p.loopsAt start k

namespace Program

variable {p : Program} {start k : Nat} {i : Instr}

theorem loopsAt_start (p : Program) (start : Nat) : p.loopsAt start start = [] := by
  cases start with
  | zero => rfl
  | succ k => exact if_pos (Nat.lt_succ_self k)

theorem lt_of_mem_loopsAt : ∀ head ∈ p.loopsAt start k, head < k := by
  induction k with
  | zero => simp [loopsAt]
  | succ k ih =>
    have later : ∀ head ∈ p.loopsAt start k, head < k + 1 := fun head member =>
      Nat.lt_succ_of_lt (ih head member)
    rw [loopsAt]
    split
    · simp
    · split
      · exact forall_mem_cons.mpr ⟨Nat.lt_succ_self k, later⟩
      · exact fun head member => later head (mem_of_mem_tail member)
      · exact later

section

variable (least : start ≤ k)
include least

theorem loopsAt_head (head : p.HeadAt k) : p.loopsAt start (k + 1) = k :: p.loopsAt start k := by
  obtain ⟨leave, here⟩ := head
  simp only [loopsAt, if_neg (Nat.not_lt.mpr least), here]

theorem loopsAt_next {body : Int} (here : p.code[k]? = some (.loopNext body)) :
    p.loopsAt start (k + 1) = (p.loopsAt start k).tail := by
  simp only [loopsAt, if_neg (Nat.not_lt.mpr least), here]

/-- Other instructions neither open nor close a loop. -/
theorem loopsAt_same (here : p.code[k]? = some i) (notHead : ∀ leave, i ≠ .loopHead leave)
    (notNext : ∀ body, i ≠ .loopNext body) : p.loopsAt start (k + 1) = p.loopsAt start k := by
  rw [loopsAt, if_neg (Nat.not_lt.mpr least), here]
  split
  · next same => exact absurd (Option.some.inj same) (notHead _)
  · next same => exact absurd (Option.some.inj same) (notNext _)
  · rfl

theorem loopsAt_code {code : List Instr} (stands : p.HasCode k code)
    (level : ∀ i ∈ code, targetOf? i = none) :
    p.loopsAt start (k + code.length) = p.loopsAt start k := by
  induction code generalizing k with
  | nil => rfl
  | cons i rest ih =>
    obtain ⟨first, others⟩ := forall_mem_cons.mp level
    rw [length_cons, Nat.add_comm rest.length, ← Nat.add_assoc, ih (by omega) stands.tail others]
    apply loopsAt_same least stands.head
    · rintro leave rfl
      contradiction
    · rintro body rfl
      contradiction

end

end Program

section Texts

variable {p : Program} {start stop position : Nat}

theorem Expression.code_level (e : Expression) : ∀ i ∈ e.code, Program.targetOf? i = none := by
  intro i member
  have computes := e.computes i member
  cases i <;> first | rfl | contradiction

theorem Simple.code_level (s : Simple) : ∀ i ∈ s.code, Program.targetOf? i = none := by
  cases s with
  | ret => simp [Simple.code, Program.targetOf?]
  | eval e => exact e.code_level
  | call name entry declared args =>
    intro i member
    rcases mem_append.mp member with passes | calls
    · obtain ⟨number, source, rfl⟩ := eq_of_mem_passArguments passes
      rfl
    · obtain rfl := mem_singleton.mp calls
      rfl

section

variable {o : Opening} {leave : Int} (stands : p.HasCode position (o.enter leave))
  (from_ : start ≤ position)
include stands from_

theorem Opening.loopsAt_exit :
    p.loopsAt start (position + o.expression.code.length) = p.loopsAt start position :=
  Program.loopsAt_code from_ stands.left o.expression.code_level

theorem Opening.loopsAt_enter :
    p.loopsAt start (position + o.enterSize) =
      p.loopsAt start (position + o.expression.code.length + 1) := by
  rw [enterSize, ← Nat.add_assoc, ← Nat.add_assoc]
  refine Program.loopsAt_code (by omega) stands.right.tail ?_
  cases o <;> simp [roundStart, Program.targetOf?]

/-- A loop that is not counted goes back to its start, with the same loops around it. -/
theorem Opening.loopsAt_round (notFor : o.block ≠ .forLoop) :
    p.loopsAt start (position + o.expression.code.length + 1) = p.loopsAt start position := by
  rw [← loopsAt_exit stands from_]
  apply Program.loopsAt_same (by omega) stands.right.head
  · cases o <;> simp_all [exit, block]
  · cases o <;> simp [exit]

/-- The end of a structure closes the loop that its head opens. -/
theorem Opening.loopsAt_back {k : Nat} (back : p.HasCode k (o.back p.codeBase position))
    (after : position + o.enterSize ≤ k)
    (same : p.loopsAt start k = p.loopsAt start (position + o.enterSize)) :
    p.loopsAt start (k + o.backSize) = p.loopsAt start position := by
  rw [loopsAt_enter stands from_] at same
  cases o with
  | ifBlock e r => exact same.trans (loopsAt_round stands from_ (by simp [Opening.block]))
  | whileLoop e r =>
    have closes := Program.loopsAt_same (show start ≤ k by omega) back.head (by simp) (by simp)
    exact closes.trans (same.trans (loopsAt_round stands from_ (by simp [Opening.block])))
  | forLoop count index =>
    have opens := Program.loopsAt_head (show start ≤ _ by omega) ⟨leave, stands.right.head⟩
    have closes := Program.loopsAt_next (show start ≤ k by omega) back.head
    rw [same, opens, tail_cons] at closes
    exact closes.trans (loopsAt_exit stands from_)

end

/-- Behind a text the same loops are open as before it. -/
theorem TextAt.loopsAt_end {n : Nest} (text : TextAt p position n stop) (from_ : start ≤ position) :
    p.loopsAt start (position + n.size) = p.loopsAt start position := by
  induction n generalizing position with
  | nil => rfl
  | step s rest ih =>
    rw [Nest.size, ← Nat.add_assoc, ih text.afterSimple (by omega)]
    exact Program.loopsAt_code from_ text.simple s.code_level
  | block o inner tail ihInner ihTail =>
    have around := ihInner text.body (by omega)
    rw [Nat.add_assoc] at around
    have closed := Opening.loopsAt_back text.enter from_ text.back (by omega) around
    rw [Nat.add_assoc] at closed
    rw [Nest.size, ← Nat.add_assoc, ihTail text.after (by omega), closed]

end Texts

/-- Only the first instructions of a routine store parameters. -/
theorem Nest.code_stores (n : Nest) (base : Int) (position : Nat) :
    ∀ i ∈ n.code base position, ∀ number place, i ≠ .storeParam number place := by
  have computed (e : Expression) : ∀ i ∈ e.code, ∀ number place, i ≠ .storeParam number place := by
    rintro i member number place rfl
    exact e.computes _ member
  induction n generalizing position with
  | nil => simp [code]
  | step s rest ih =>
    refine forall_mem_append.mpr ⟨?_, ih _⟩
    cases s with
    | ret => simp [Simple.code]
    | eval e => exact computed e
    | call name entry declared args =>
      refine forall_mem_append.mpr ⟨fun i member => ?_, by simp⟩
      obtain ⟨number, source, rfl⟩ := eq_of_mem_passArguments member
      simp
  | block o inner tail ihInner ihTail =>
    refine forall_mem_append.mpr ⟨forall_mem_append.mpr ⟨forall_mem_append.mpr
      ⟨forall_mem_append.mpr ⟨computed _, ?_⟩, ihInner _⟩, ?_⟩, ihTail _⟩
    · cases o <;> simp [Opening.exit, Opening.roundStart]
    · cases o <;> simp [Opening.back]

end HighAsm
