import HighAsm.Proofs.ControlFlow

/-!
# Instructions in their place

What every instruction of an assembled program may rely on, whatever state it is carried out in. Its
jumps stay inside its routine, the parameter registers that it names are there, it calls a procedure
of the program, and an instruction of a counted loop belongs to the head of one in the same routine.
The code of a text is laid out so that all of this holds, structure by structure.
-/

namespace HighAsm

open List

namespace Program

/-- A counted loop is headed at a position. -/
def HeadAt (p : Program) (position : Nat) : Prop :=
  ∃ leave, p.code[position]? = some (.loopHead leave)

/-- An address is that of a position between two others, the last of which is included. -/
def LeadsInside (p : Program) (start stop : Nat) (target : Int) : Prop :=
  ∃ position, start ≤ position ∧ position ≤ stop ∧ target = codeAddress p.codeBase position

theorem LeadsInside.mono {p p' : Program} {start stop start' stop' : Nat} {target : Int}
    (inside : p.LeadsInside start stop target) (base : p'.codeBase = p.codeBase)
    (least : start' ≤ start) (most : stop ≤ stop') : p'.LeadsInside start' stop' target := by
  obtain ⟨position, from_, until_, rfl⟩ := inside
  exact ⟨position, Nat.le_trans least from_, Nat.le_trans until_ most, by rw [base]⟩

end Program

/-- What an instruction at a position may rely on, in a routine whose code lies between two
others. -/
def Instr.Fits (p : Program) (start stop position : Nat) : Instr → Prop
  | load _ | loadIndirect _ | store _ | storeIndirect _ | copyToTemp | ret => True
  | binary op _ => op.isDefined
  | loadParam register _ | storeParam register _ => 0 ≤ register ∧ register < p.maxParams
  | jump test target => test ≠ .undefined ∧ p.LeadsInside start stop target
  | loopHead leave => p.LeadsInside start stop leave
  | loopIndex => ∃ head, start ≤ head ∧ p.HeadAt head ∧ position = head + 1
  | loopNext body => ∃ head, start ≤ head ∧ head < stop ∧ p.HeadAt head ∧
      body = codeAddress p.codeBase (head + 1)
  | call entry => p.IsEntry entry
  | undefined => False

/-- Instructions from a position on all fit. -/
def Program.Fitting (p : Program) (start stop position : Nat) (code : List Instr) : Prop :=
  ∀ (k : Nat) (i : Instr), code[k]? = some i → i.Fits p start stop (position + k)

namespace Program.Fitting

variable {p : Program} {start stop position : Nat} {first second code : List Instr} {i : Instr}

theorem append (left : p.Fitting start stop position first)
    (right : p.Fitting start stop (position + first.length) second) :
    p.Fitting start stop position (first ++ second) := by
  intro k i here
  by_cases early : k < first.length
  · rw [getElem?_append_left early] at here
    exact left k i here
  · rw [getElem?_append_right (by omega)] at here
    have fits := right _ i here
    rwa [Nat.add_assoc, Nat.add_sub_cancel' (by omega)] at fits

theorem cons (first : i.Fits p start stop position)
    (rest : p.Fitting start stop (position + 1) code) :
    p.Fitting start stop position (i :: code) := by
  intro k j here
  cases k with
  | zero =>
    cases here
    exact first
  | succ k =>
    have fits := rest k j here
    rwa [Nat.add_assoc, Nat.add_comm 1 k] at fits

theorem nil : p.Fitting start stop position [] := by
  intro k i here
  contradiction

theorem of_forall (all : ∀ i ∈ code, ∀ position, i.Fits p start stop position) :
    p.Fitting start stop position code :=
  fun _ i here => all i (mem_of_getElem? here) _

end Program.Fitting

open Program (Fitting)

section Texts

variable {p : Program} {start stop position : Nat}

theorem Operation.fits {o : Operation} (defined : o.Defined) :
    ∀ i ∈ o.code, ∀ position, i.Fits p start stop position := by
  cases o with
  | combine op right => exact forall_mem_singleton.mpr fun _ => defined
  | store place => cases place <;> simp [Operation.code, Place.code, Instr.Fits, BinOp.isDefined]

theorem Term.fits (t : Term) : ∀ i ∈ t.code, ∀ position, i.Fits p start stop position := by
  cases t <;> simp [Term.code, Instr.Fits, BinOp.isDefined]

theorem Expression.fitting {e : Expression} (defined : e.Defined) :
    p.Fitting start stop position e.code := by
  apply Fitting.of_forall
  intro i member
  rcases mem_append.mp member with first | later
  · exact e.first.fits i first
  · obtain ⟨o, inside, member⟩ := mem_flatMap.mp later
    exact Operation.fits (defined o inside) i member

theorem passArguments_fitting {args : List Operand} {register : Nat}
    (few : (register + args.length : Nat) ≤ p.maxParams) :
    p.Fitting start stop position (Assembly.passArguments register args) := by
  induction args generalizing register position with
  | nil => exact .nil
  | cons arg rest ih =>
    rw [length_cons] at few
    exact .cons ⟨by omega, by omega⟩ (ih (by omega))

theorem storeParams_fitting {places : List Int} {register : Nat}
    (few : (register + places.length : Nat) ≤ p.maxParams) :
    p.Fitting start stop position (storeParams register places) := by
  induction places generalizing register position with
  | nil => exact .nil
  | cons place rest ih =>
    rw [length_cons] at few
    exact .cons ⟨by omega, by omega⟩ (ih (by omega))

theorem Simple.fitting {s : Simple} (sound : s.statement.Sound p.maxParams p.Offers) :
    p.Fitting start stop position s.code := by
  cases s with
  | ret => exact .cons trivial .nil
  | eval e => exact Expression.fitting sound
  | call name entry declared args =>
    obtain ⟨offered, few⟩ := sound
    refine (passArguments_fitting (by omega)).append (.cons ?_ .nil)
    exact offered.isEntry

/-- The head of a structure: its exit leads behind the structure, and a counted loop begins its
rounds right behind its head. -/
theorem Opening.enter_fitting {o : Opening} {leave : Int}
    (sound : o.statement.Sound p.maxParams p.Offers) (stands : p.HasCode position (o.enter leave))
    (after : start ≤ position) (inside : p.LeadsInside start stop leave) :
    p.Fitting start stop position (o.enter leave) := by
  have exit := stands.right.head
  cases o with
  | ifBlock e r | whileLoop e r =>
    refine (Expression.fitting sound.1).append (.cons ⟨?_, inside⟩ .nil)
    cases r <;> nofun
  | forLoop count index =>
    refine (Expression.fitting sound).append (.cons inside (.cons ?_ ?_))
    · exact ⟨position + count.code.length, by omega, ⟨leave, exit⟩, rfl⟩
    · apply Fitting.of_forall
      intro i member
      obtain ⟨place, -, rfl⟩ := mem_map.mp member
      exact fun _ => trivial

/-- The end of a structure: a loop goes back to its start. -/
theorem Opening.back_fitting {o : Opening} {leave : Int} {first : Nat}
    (stands : p.HasCode first (o.enter leave)) (after : start ≤ first)
    (before : first + o.enterSize ≤ stop) :
    p.Fitting start stop position (o.back p.codeBase first) := by
  have exit := stands.right.head
  cases o with
  | ifBlock => exact .nil
  | whileLoop e r =>
    refine .cons ⟨nofun, first, after, ?_, rfl⟩ .nil
    omega
  | forLoop count index =>
    refine .cons ⟨first + count.code.length, ?_, ?_, ⟨leave, exit⟩, rfl⟩ .nil
    · omega
    · have size : (forLoop count index).enterSize =
          count.code.length + 1 + (forLoop count index).roundStart.length := rfl
      omega

theorem TextAt.fitting {n : Nest} (text : TextAt p position n stop) (after : start ≤ position) :
    p.Fitting start stop position (n.code p.codeBase position) := by
  induction n generalizing position with
  | nil => exact .nil
  | step s rest ih =>
    refine (Simple.fitting (text.sound _ mem_cons_self)).append ?_
    exact ih text.afterSimple (by omega)
  | block o inner tail ihInner ihTail =>
    have fits := text.fits
    rw [Nest.size] at fits
    have opening : o.statement.Sound p.maxParams p.Offers := text.sound _ mem_cons_self
    refine (((Opening.enter_fitting opening text.enter after ?_).append ?_).append ?_).append ?_
    · exact ⟨_, by omega, by omega, rfl⟩
    · rw [Opening.length_enter]
      exact ihInner text.body (by omega)
    · exact Opening.back_fitting text.enter after (by omega)
    · rw [length_append, length_append, Opening.length_enter, Nest.length_code,
        Opening.length_back]
      exact ihTail text.after (by omega)

end Texts

variable {q : Nat} {r : Routine} {routines : List Routine} {p : Program} (made : p.MadeOf routines)
  (placed : Placed routines q r)
include made placed

theorem Placed.textAt : TextAt p (q + r.places.length) r.body (q + r.size) := by
  have stands := (placed.hasCode made).right
  rw [length_storeParams] at stands
  refine ⟨stands, (made.sound r placed.mem).statements, ?_, placed.end_le made⟩
  rw [Routine.size]
  omega

theorem Placed.fitting : p.Fitting q (q + r.size) q (r.code p.codeBase q) := by
  have params := (made.sound r placed.mem).params
  refine (storeParams_fitting (by omega)).append ?_
  rw [length_storeParams]
  exact (placed.textAt made).fitting (by omega)

theorem Placed.fits {k : Nat} {i : Instr} (least : q ≤ k) (most : k < q + r.size)
    (here : p.code[k]? = some i) : i.Fits p q (q + r.size) k := by
  have stands := placed.hasCode made (k - q) (by rw [Routine.length_code]; omega)
  rw [Nat.add_sub_cancel' least, here] at stands
  have fits := placed.fitting made (k - q) i stands.symm
  rwa [Nat.add_sub_cancel' least] at fits

end HighAsm
