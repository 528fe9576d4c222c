import HighAsm.Backend
import HighAsm.Proofs.Calls
import HighAsm.Proofs.Fitting
import HighAsm.Proofs.LoweredForm
import HighAsm.Proofs.Numerals

/-!
# Lowered code is closed

A module is closed when nothing in it refers to what is not there: a jump leads to a block of its
function, a call to a function of the module, a loop counter is set to zero at the start, a register
is one of those that a call has, and a fresh temporary is assigned once and read behind that in the
same block. Every assembled program can be lowered, and the module is closed.
-/

namespace HighAsm

open List Routine

namespace IL

/-- The number of a fresh temporary. -/
def Temp.fresh? : Temp → Option Nat
  | fresh n => some n
  | _ => none

/-- The temporaries of a value. -/
def Value.temps : Value → List Temp
  | temp t => [t]
  | int _ => []

namespace Instr

/-- The temporaries that an instruction reads. -/
def reads : Instr → List Temp
  | copy _ v | pointer _ v | widen _ v | signHalf _ v | load _ _ v => v.temps
  | arith _ _ a b | compare _ _ a b | store _ a b => a.temps ++ b.temps
  | call _ _ args => args.flatMap Value.temps

/-- The temporary that an instruction assigns. -/
def target? : Instr → Option Temp
  | copy t _ | pointer t _ | widen t _ | signHalf t _ | load _ t _ => some t
  | arith t _ _ _ | compare t _ _ _ | call t _ _ => some t
  | store _ _ _ => none

/-- The number of the fresh temporary that an instruction assigns. -/
def freshTarget? (i : Instr) : Option Nat := i.target?.bind Temp.fresh?

/-- The function that an instruction calls. -/
def callee? : Instr → Option String
  | call _ name _ => some name
  | _ => none

end Instr

/-- The temporaries that an exit reads. -/
def Exit.reads : Exit → List Temp
  | jump _ => []
  | branch v _ _ | ret v => v.temps

/-- The labels that an exit names. -/
def Exit.labels : Exit → List Label
  | jump l => [l]
  | branch _ nonZero zero => [nonZero, zero]
  | ret _ => []

/-- The number of a register for an argument or a parameter. -/
def Temp.register? : Temp → Option Int
  | arg register | param register => some register
  | _ => none

namespace Block

/-- The temporaries that a block reads. -/
def reads (b : Block) : List Temp :=
  b.instrs.flatMap Instr.reads ++ b.exit?.toList.flatMap Exit.reads

/-- The temporaries that a block assigns, in order. -/
def targets (b : Block) : List Temp := b.instrs.filterMap Instr.target?

/-- The fresh temporaries that a block assigns, in order. -/
def assigned (b : Block) : List Nat := b.instrs.filterMap Instr.freshTarget?

/-- Every fresh temporary that is read has been assigned before: it is one of those that are known,
or an instruction in between assigns it. -/
def Scoped (exit? : Option Exit) : List Nat → List Instr → Prop
  | known, [] => ∀ t ∈ exit?.toList.flatMap Exit.reads, ∀ n ∈ t.fresh?, n ∈ known
  | known, i :: rest =>
    (∀ t ∈ i.reads, ∀ n ∈ t.fresh?, n ∈ known) ∧
      Scoped exit? (i.freshTarget?.toList ++ known) rest

end Block

/-- A function refers only to what it has itself, to registers below a limit, and to functions of
some names. -/
structure Function.Closed (limit : Int) (names : List String) (f : Function) : Prop where
  labels : (f.blocks.map Block.label).Nodup
  jumps : ∀ b ∈ f.blocks, ∀ e ∈ b.exit?, ∀ l ∈ e.labels, l ∈ f.blocks.map Block.label
  calls : ∀ b ∈ f.blocks, ∀ i ∈ b.instrs, ∀ name ∈ i.callee?, name ∈ names
  counters : ∀ b ∈ f.blocks, ∀ head, Temp.counter head ∈ b.reads →
    ∃ first, f.blocks.head? = some first ∧ Instr.copy (.counter head) (.int 0) ∈ first.instrs
  params : (f.params : Int) = limit
  registers : ∀ b ∈ f.blocks, ∀ t ∈ b.reads ++ b.targets, ∀ register ∈ t.register?,
    0 ≤ register ∧ register < limit
  fresh : ∀ b ∈ f.blocks, Block.Scoped b.exit? [] b.instrs

/-- The functions of a module are closed, and no fresh temporary is assigned twice in all of
them. -/
structure Module.Closed (limit : Int) (m : Module) : Prop where
  functions : ∀ f ∈ m.functions, f.Closed limit (m.functions.map Function.name)
  once : (m.functions.flatMap fun f => f.blocks.flatMap Block.assigned).Nodup

end IL

namespace Lowering

open IL (Temp)

/-! ## What the block of an instruction refers to -/

/-- A temporary that code between two positions may use: a register is one of the program, and a
counter belongs to a loop head. -/
def Allowed (p : Program) (q stop : Nat) : Temp → Prop
  | .acc | .tmp | .fresh _ => True
  | .arg register | .param register => 0 ≤ register ∧ register < p.maxParams
  | .counter head => ∃ j, q ≤ j ∧ j < stop ∧ p.HeadAt j ∧ head = codeAddress p.codeBase j

/-- The fresh temporaries among some are numbered from one number up to another. -/
def Between (used now : Nat) (temps : List Temp) : Prop :=
  ∀ t ∈ temps, ∀ n ∈ t.fresh?, used < n ∧ n ≤ now

/-- Instructions assign the fresh temporaries from one number up to another in order, and read only
those that were assigned since a third. -/
def Numbered (used : Nat) : Nat → List IL.Instr → Nat → Prop
  | now, [], last => now = last
  | now, i :: rest, last =>
    Between used now i.reads ∧
      match i.freshTarget? with
      | none => Numbered used now rest last
      | some n => n = now + 1 ∧ Numbered used (now + 1) rest last

namespace Numbered

variable {used now middle last : Nat} {first second code : List IL.Instr}

theorem append (left : Numbered used now first middle)
    (right : Numbered used middle second last) : Numbered used now (first ++ second) last := by
  induction first generalizing now with
  | nil =>
    obtain rfl : now = middle := left
    exact right
  | cons i rest ih =>
    obtain ⟨reads, left⟩ := left
    refine ⟨reads, ?_⟩
    split at left
    · exact ih left
    · exact ⟨left.1, ih left.2⟩

variable (numbered : Numbered used now code last)
include numbered

theorem le : now ≤ last := by
  induction code generalizing now with
  | nil => exact Nat.le_of_eq numbered
  | cons i rest ih =>
    obtain ⟨-, numbered⟩ := numbered
    split at numbered
    · exact ih numbered
    · exact Nat.le_of_succ_le (ih numbered.2)

theorem assigned : code.filterMap IL.Instr.freshTarget? = List.range' (now + 1) (last - now) := by
  induction code generalizing now with
  | nil =>
    obtain rfl : now = last := numbered
    simp
  | cons i rest ih =>
    obtain ⟨-, numbered⟩ := numbered
    split at numbered
    · next none_ => rw [filterMap_cons_none none_, ih numbered]
    · next some_ =>
      obtain ⟨rfl, numbered⟩ := numbered
      have more := numbered.le
      rw [filterMap_cons_some some_, ih numbered,
        show last - now = last - (now + 1) + 1 by omega, range'_succ]

/-- What is read was assigned before, in the same code. -/
theorem inScope {exit? : Option IL.Exit}
    (leaves : Between used last (exit?.toList.flatMap IL.Exit.reads)) {known : List Nat}
    (all : ∀ n, used < n → n ≤ now → n ∈ known) : IL.Block.Scoped exit? known code := by
  induction code generalizing now known with
  | nil =>
    obtain rfl : now = last := numbered
    exact fun t member n fresh => all n (leaves t member n fresh).1 (leaves t member n fresh).2
  | cons i rest ih =>
    obtain ⟨reads, numbered⟩ := numbered
    refine ⟨fun t member n fresh => all n (reads t member n fresh).1 (reads t member n fresh).2, ?_⟩
    split at numbered
    · next none_ =>
      rw [none_]
      exact ih numbered all
    · next some_ =>
      obtain ⟨rfl, numbered⟩ := numbered
      rw [some_]
      apply ih numbered
      intro n after before
      rcases Nat.lt_or_eq_of_le before with earlier | rfl
      · exact mem_append_right _ (all n after (Nat.le_of_lt_succ earlier))
      · exact mem_append_left _ (mem_singleton.mpr rfl)

end Numbered

/-- What the block of an instruction refers to, in a routine between two positions. -/
structure Tame (p : Program) (q stop used used' : Nat) (b : IL.Block) : Prop where
  numbered : Numbered used used b.instrs used'
  leaves : Between used used' (b.exit?.toList.flatMap IL.Exit.reads)
  temps : ∀ t ∈ b.reads ++ b.targets, Allowed p q stop t
  jumps : ∀ e ∈ b.exit?, ∀ l ∈ e.labels, ∃ target, l = .code target ∧ p.LeadsInside q stop target
  calls : ∀ i ∈ b.instrs, ∀ name ∈ i.callee?, ∃ proc ∈ p.procedures, name = functionName proc

/-- Instructions without calls that a block in a routine between two positions may have. -/
structure Row (p : Program) (q stop used now : Nat) (code : List IL.Instr) (last : Nat) : Prop where
  numbered : Numbered used now code last
  temps : ∀ i ∈ code, ∀ t ∈ i.reads ++ i.target?.toList, Allowed p q stop t
  calls : ∀ i ∈ code, i.callee? = none

/-- Temporaries that may be read when fresh ones were assigned from one number up to another. -/
structure Readable (p : Program) (q stop used now : Nat) (temps : List Temp) : Prop where
  between : Between used now temps
  allowed : ∀ t ∈ temps, Allowed p q stop t

section Rows

variable {p : Program} {q stop used now middle last n : Nat} {first second : List IL.Instr}
  {temps others : List Temp} {t : Temp} {i : IL.Instr} {code : List IL.Instr} {label : IL.Label}

namespace Readable

theorem nil : Readable p q stop used now [] := ⟨by simp [Between], by simp⟩

theorem append (left : Readable p q stop used now temps)
    (right : Readable p q stop used now others) : Readable p q stop used now (temps ++ others) :=
  ⟨forall_mem_append.mpr ⟨left.between, right.between⟩,
    forall_mem_append.mpr ⟨left.allowed, right.allowed⟩⟩

theorem mono (readable : Readable p q stop used now temps) (later : now ≤ last) :
    Readable p q stop used last temps :=
  ⟨fun t member n fresh => ⟨(readable.between t member n fresh).1,
    Nat.le_trans (readable.between t member n fresh).2 later⟩, readable.allowed⟩

theorem fresh (after : used < n) (before : n ≤ now) :
    Readable p q stop used now [.fresh n] := by
  constructor
  · simp [Between, Temp.fresh?, after, before]
  · exact forall_mem_singleton.mpr trivial

theorem other (notFresh : t.fresh? = none) (allowed : Allowed p q stop t) :
    Readable p q stop used now [t] := by
  constructor
  · simp [Between, notFresh]
  · exact forall_mem_singleton.mpr allowed

theorem acc : Readable p q stop used now [.acc] := other rfl trivial

end Readable

namespace Row

theorem nil : Row p q stop used now [] now := ⟨rfl, by simp, by simp⟩

theorem append (left : Row p q stop used now first middle)
    (right : Row p q stop used middle second last) :
    Row p q stop used now (first ++ second) last where
  numbered := left.numbered.append right.numbered
  temps := forall_mem_append.mpr ⟨left.temps, right.temps⟩
  calls := forall_mem_append.mpr ⟨left.calls, right.calls⟩

theorem of_forall {code : List IL.Instr} (each : ∀ i ∈ code, Row p q stop used now [i] now) :
    Row p q stop used now code now := by
  induction code with
  | nil => exact nil
  | cons i rest ih =>
    obtain ⟨first, others⟩ := forall_mem_cons.mp each
    exact first.append (ih others)

variable (reads : Readable p q stop used now i.reads)
include reads

theorem next (target : i.target? = some (.fresh (now + 1))) (notCall : i.callee? = none) :
    Row p q stop used now [i] (now + 1) := by
  have fresh : i.freshTarget? = some (now + 1) := by rw [IL.Instr.freshTarget?, target]; rfl
  refine ⟨⟨reads.between, ?_⟩, ?_, forall_mem_singleton.mpr notCall⟩
  · rw [fresh]
    exact ⟨rfl, rfl⟩
  · rw [forall_mem_singleton, target]
    exact forall_mem_append.mpr ⟨reads.allowed, forall_mem_singleton.mpr trivial⟩

theorem keep (target : ∀ t ∈ i.target?, t.fresh? = none ∧ Allowed p q stop t)
    (notCall : i.callee? = none) : Row p q stop used now [i] now := by
  have fresh : i.freshTarget? = none :=
    Option.bind_eq_none_iff.mpr fun t assigned => (target t assigned).1
  refine ⟨⟨reads.between, ?_⟩, ?_, forall_mem_singleton.mpr notCall⟩
  · rw [fresh]
    rfl
  · rw [forall_mem_singleton, forall_mem_append]
    exact ⟨reads.allowed, fun t assigned => (target t (Option.mem_toList.mp assigned)).2⟩

theorem toAcc (target : i.target? = some .acc) (notCall : i.callee? = none) :
    Row p q stop used now [i] now := by
  apply keep reads _ notCall
  rw [target]
  rintro t ⟨⟩
  exact ⟨rfl, trivial⟩

end Row

theorem row_pointerTo (address : Int) :
    Row p q stop used used (pointerTo used address).instrs (used + 1) :=
  .next .nil rfl rfl

theorem row_pointerAcc : Row p q stop used used (pointerAcc used).instrs (used + 3) := by
  have masked : Row p q stop used used [.arith (.fresh (used + 1)) .and acc (.int 65535)]
      (used + 1) := .next (.append .acc .nil) rfl rfl
  have wide : Row p q stop used (used + 1)
      [.widen (.fresh (used + 2)) (var (.fresh (used + 1)))] (used + 2) := by
    refine .next (.fresh ?_ ?_) rfl rfl <;> omega
  refine masked.append (wide.append (.next (.fresh ?_ ?_) rfl rfl)) <;> omega

theorem row_operand (p : Program) (q stop used : Nat) (source : Operand) :
    Row p q stop used used (operand used source).instrs (operand used source).used ∧
      Readable p q stop used (operand used source).used (operand used source).value.temps := by
  cases source with
  | const n => exact ⟨.nil, .nil⟩
  | var address =>
    constructor
    · refine (row_pointerTo address).append (.next (.fresh ?_ ?_) rfl rfl) <;> omega
    · refine .fresh ?_ ?_
      · simp only [pointerTo]
        omega
      · exact Nat.le_refl _

variable (row : Row p q stop used used code last)
include row

theorem Tame.of_exit {exit? : Option IL.Exit}
    (leaves : Readable p q stop used last (exit?.toList.flatMap IL.Exit.reads))
    (jumps : ∀ e ∈ exit?, ∀ l ∈ e.labels,
      ∃ target, l = .code target ∧ p.LeadsInside q stop target) :
    Tame p q stop used last ⟨label, code, exit?⟩ := by
  refine ⟨row.numbered, leaves.between, ?_, jumps, ?_⟩
  · intro t member
    simp only [IL.Block.reads, IL.Block.targets, mem_append, mem_filterMap] at member
    rcases member with (read | read) | ⟨i, inside, assigned⟩
    · obtain ⟨i, inside, read⟩ := mem_flatMap.mp read
      exact row.temps i inside t (mem_append_left _ read)
    · exact leaves.allowed t read
    · exact row.temps i inside t (mem_append_right _ (Option.mem_toList.mpr assigned))
  · intro i inside name called
    rw [row.calls i inside] at called
    contradiction

theorem Tame.of_row : Tame p q stop used last ⟨label, code, none⟩ :=
  .of_exit row .nil (by simp)

theorem Tame.of_branch {v : IL.Value} {first second : Int}
    (leaves : Readable p q stop used last v.temps) (left : p.LeadsInside q stop first)
    (right : p.LeadsInside q stop second) :
    Tame p q stop used last ⟨label, code, some (.branch v (.code first) (.code second))⟩ := by
  refine .of_exit row ?_ ?_
  · simpa [IL.Exit.reads] using leaves
  · rintro e ⟨⟩ l named
    simp only [IL.Exit.labels, mem_cons, not_mem_nil, or_false] at named
    rcases named with rfl | rfl
    · exact ⟨first, rfl, left⟩
    · exact ⟨second, rfl, right⟩

end Rows

section Instructions

variable {p : Program} {name : String} {q stop k used : Nat} {i : Instr}

/-- An address inside the procedure has a label. -/
theorem label_of_leadsInside (name : String) {target : Int} (small : stop < 0x8000000000000000)
    (ordered : codeAddress p.codeBase q < codeAddress p.codeBase stop)
    (inside : p.LeadsInside q stop target) :
    label ⟨p, name, codeAddress p.codeBase q, codeAddress p.codeBase stop⟩ target =
      .ok (.code target) := by
  obtain ⟨j, from_, until_, rfl⟩ := inside
  have here := codeAddress_between small ordered from_ until_
  have there := codeAddress_between small ordered (Nat.le_trans from_ until_) (Nat.le_refl stop)
  have first : codeAddress p.codeBase q ≤ codeAddress p.codeBase j := by omega
  have last : codeAddress p.codeBase j ≤ codeAddress p.codeBase stop := by omega
  exact label_ok_iff.mpr ⟨⟨first, last⟩, rfl⟩

theorem row_binary (p : Program) (q stop used : Nat) (op : BinOp) (right : Operand) :
    Row p q stop used used (binary used op right).1 (binary used op right).2 := by
  obtain ⟨row, readable⟩ := row_operand p q stop used right
  have narrow (now : Nat) : Row p q stop used now [.signHalf .acc acc] now :=
    .toAcc .acc rfl rfl
  unfold binary
  dsimp only
  split
  · have after := row.numbered.le
    generalize (operand used right).used = now at row readable after ⊢
    have fresh {n last : Nat} (above : now < n) (below : n ≤ last) :
        Readable p q stop used last [.fresh n] := .fresh (by omega) below
    have isZero : Row p q stop used now
        [.compare (.fresh (now + 1)) .equal (operand used right).value (.int 0)] (now + 1) :=
      .next (.append readable .nil) rfl rfl
    have divisor : Row p q stop used (now + 1)
        [.arith (.fresh (now + 2)) .add (operand used right).value (var (.fresh (now + 1)))]
        (now + 2) := by
      refine .next (.append (readable.mono ?_) (fresh ?_ ?_)) rfl rfl <;> omega
    have quotient : Row p q stop used (now + 2)
        [.arith (.fresh (now + 3)) op acc (var (.fresh (now + 2)))] (now + 3) := by
      refine .next (.append .acc (fresh ?_ ?_)) rfl rfl <;> omega
    have keep : Row p q stop used (now + 3)
        [.arith (.fresh (now + 4)) .sub (var (.fresh (now + 1))) (.int 1)] (now + 4) := by
      refine .next (.append (fresh ?_ ?_) .nil) rfl rfl <;> omega
    have result : Row p q stop used (now + 4)
        [.arith .acc .and (var (.fresh (now + 3))) (var (.fresh (now + 4)))] (now + 4) := by
      refine .toAcc (.append (fresh ?_ ?_) (fresh ?_ ?_)) rfl rfl <;> omega
    exact row.append (isZero.append (divisor.append (quotient.append (keep.append
      (result.append (narrow _))))))
  · exact row.append (Row.append (.toAcc (.append .acc readable) rfl rfl) (narrow _))

/-- A block with a call: all argument registers are passed. -/
theorem tame_call {label : IL.Label} {callee : Procedure} (known : callee ∈ p.procedures) :
    Tame p q stop used used ⟨label, [.call .acc (functionName callee)
      ((List.range p.maxParams.toNat).map fun (i : Nat) => var (.arg i))], none⟩ := by
  have args : Readable p q stop used used
      (((List.range p.maxParams.toNat).map fun (i : Nat) => var (.arg i)).flatMap
        IL.Value.temps) := by
    constructor
    · intro t member n fresh
      obtain ⟨v, passed, read⟩ := mem_flatMap.mp member
      obtain ⟨i, -, rfl⟩ := mem_map.mp passed
      obtain rfl := mem_singleton.mp read
      contradiction
    · intro t member
      obtain ⟨v, passed, read⟩ := mem_flatMap.mp member
      obtain ⟨i, few, rfl⟩ := mem_map.mp passed
      obtain rfl := mem_singleton.mp read
      have few := mem_range.mp few
      exact ⟨by omega, by omega⟩
  refine ⟨⟨args.between, rfl⟩, by simp [Between], ?_, by simp, ?_⟩
  · intro t member
    simp only [IL.Block.reads, IL.Block.targets, Option.toList_none, flatMap_nil,
      append_nil, flatMap_cons] at member
    rcases mem_append.mp member with read | assigned
    · exact args.allowed t read
    · obtain rfl := mem_singleton.mp assigned
      trivial
  · intro i inside name called
    obtain rfl := mem_singleton.mp inside
    exact ⟨callee, known, (Option.some.inj called).symm⟩

/-- The block of an instruction at a position is tame. -/
def Tamed (p : Program) (name : String) (q stop k used : Nat) (i : Instr) : Prop :=
  ∃ b used', instr ⟨p, name, codeAddress p.codeBase q, codeAddress p.codeBase stop⟩ used
    (codeAddress p.codeBase k) i = .ok (b, used') ∧ Tame p q stop used used' b

theorem loadIndirect_tamed (width : Width) : Tamed p name q stop k used (.loadIndirect width) := by
  have loaded : Row p q stop used (used + 3)
      [.load width (.fresh (used + 4)) (pointerAcc used).value] (used + 4) := by
    refine .next (.fresh ?_ ?_) rfl rfl <;> omega
  have copied : Row p q stop used (used + 4) [.copy .acc (var (.fresh (used + 4)))]
      (used + 4) := by
    refine .toAcc (.fresh ?_ ?_) rfl rfl <;> omega
  exact ⟨_, _, rfl, .of_row ((row_pointerAcc.append loaded).append copied)⟩

theorem storeIndirect_tamed (width : Width) :
    Tamed p name q stop k used (.storeIndirect width) := by
  have stored : Row p q stop used (used + 3)
      [.store width (var .tmp) (pointerAcc used).value] (used + 3) := by
    refine .keep (.append (.other rfl trivial) (.fresh ?_ ?_)) nofun rfl <;> omega
  exact ⟨_, _, rfl, .of_row (row_pointerAcc.append
    (stored.append (.toAcc (.other rfl trivial) rfl rfl)))⟩

theorem loadParam_tamed {register : Int} (source : Operand)
    (fits : 0 ≤ register ∧ register < p.maxParams) :
    Tamed p name q stop k used (.loadParam register source) := by
  obtain ⟨row, readable⟩ := row_operand p q stop used source
  refine ⟨_, _, bind_ok_iff.mpr ⟨(), checkRegister_ok_iff.mpr fits.2, rfl⟩,
    .of_row (row.append (.keep readable ?_ rfl))⟩
  rintro t ⟨⟩
  exact ⟨rfl, fits⟩

theorem loopIndex_tamed (fits : Instr.loopIndex.Fits p q stop k) (until_ : k < stop) :
    Tamed p name q stop k used .loopIndex := by
  obtain ⟨head, after, heads, rfl⟩ := fits
  have counter : Allowed p q stop
      (.counter (wrap64 (codeAddress p.codeBase (head + 1) - 1))) :=
    ⟨head, after, by omega, heads, codeAddress_pred _ _⟩
  exact ⟨_, _, rfl, .of_row (.toAcc (.append (.other rfl counter) .nil) rfl rfl)⟩

theorem call_tamed {entry : Int} (fits : (Instr.call entry).Fits p q stop k) :
    Tamed p name q stop k used (.call entry) := by
  obtain ⟨proc, member, begins⟩ := fits
  have known : (p.procedureAt? entry).isSome := by
    rw [Program.procedureAt?, find?_isSome]
    exact ⟨proc, member, by simpa using begins⟩
  obtain ⟨callee, found⟩ := Option.isSome_iff_exists.mp known
  exact ⟨_, _, instr_call found .., tame_call (mem_of_find?_eq_some found)⟩

theorem leadsInside_following (from_ : q ≤ k) (until_ : k < stop) :
    p.LeadsInside q stop (wrap64 (codeAddress p.codeBase k + 1)) :=
  ⟨k + 1, by omega, until_, codeAddress_succ _ _⟩

section Control

variable (small : stop < 0x8000000000000000)
  (ordered : codeAddress p.codeBase q < codeAddress p.codeBase stop) (from_ : q ≤ k)
  (until_ : k < stop)
include small ordered from_ until_

theorem jump_tamed {test : Test} {target : Int} (fits : (Instr.jump test target).Fits p q stop k) :
    Tamed p name q stop k used (.jump test target) := by
  have following := leadsInside_following (p := p) from_ until_
  obtain ⟨named, inside⟩ := fits
  have labelled := label_of_leadsInside name small ordered inside
  cases test with
  | undefined => contradiction
  | always =>
    refine ⟨_, _, bind_ok_iff.mpr ⟨_, labelled, rfl⟩, .of_exit .nil .nil ?_⟩
    rintro e ⟨⟩ l named
    exact ⟨target, mem_singleton.mp named, inside⟩
  | zero =>
    exact ⟨_, _, bind_ok_iff.mpr ⟨_, labelled, rfl⟩, .of_branch .nil .acc following inside⟩
  | nonZero =>
    exact ⟨_, _, bind_ok_iff.mpr ⟨_, labelled, rfl⟩, .of_branch .nil .acc inside following⟩
  | nonNegative =>
    refine ⟨_, _, bind_ok_iff.mpr ⟨_, labelled, rfl⟩,
      .of_branch (.next (.append .acc .nil) rfl rfl) (.fresh ?_ ?_) inside following⟩ <;> omega

theorem loopHead_tamed {leave : Int} (here : p.code[k]? = some (.loopHead leave))
    (fits : (Instr.loopHead leave).Fits p q stop k) :
    Tamed p name q stop k used (.loopHead leave) := by
  have following := leadsInside_following (p := p) from_ until_
  have labelled := label_of_leadsInside name small ordered fits
  have counter : Allowed p q stop (.counter (codeAddress p.codeBase k)) :=
    ⟨k, from_, until_, ⟨leave, here⟩, rfl⟩
  have counted : Row p q stop used used [.copy (.counter (codeAddress p.codeBase k)) acc]
      used := by
    refine .keep .acc ?_ rfl
    rintro t ⟨⟩
    exact ⟨rfl, counter⟩
  refine ⟨_, _, bind_ok_iff.mpr ⟨_, labelled, rfl⟩, .of_branch
    (counted.append (.next (.append .acc .nil) rfl rfl)) (.fresh ?_ ?_) following fits⟩ <;> omega

theorem loopNext_tamed {body : Int} (fits : (Instr.loopNext body).Fits p q stop k) :
    Tamed p name q stop k used (.loopNext body) := by
  have following := leadsInside_following (p := p) from_ until_
  obtain ⟨head, after, before, heads, rfl⟩ := fits
  have inside : p.LeadsInside q stop (codeAddress p.codeBase (head + 1)) :=
    ⟨head + 1, by omega, by omega, rfl⟩
  have labelled := label_of_leadsInside name small ordered inside
  have counter : Allowed p q stop
      (.counter (wrap64 (codeAddress p.codeBase (head + 1) - 1))) :=
    ⟨head, after, before, heads, codeAddress_pred _ _⟩
  have read {now : Nat} : Readable p q stop used now
      [.counter (wrap64 (codeAddress p.codeBase (head + 1) - 1))] := .other rfl counter
  have counted : Row p q stop used used
      [.arith (.counter (wrap64 (codeAddress p.codeBase (head + 1) - 1))) .sub
        (var (.counter (wrap64 (codeAddress p.codeBase (head + 1) - 1)))) (.int 1)] used := by
    refine .keep (.append read .nil) ?_ rfl
    rintro t ⟨⟩
    exact ⟨rfl, counter⟩
  refine ⟨_, _, bind_ok_iff.mpr ⟨_, labelled, rfl⟩, .of_branch
    (counted.append (.next (.append read .nil) rfl rfl)) (.fresh ?_ ?_) inside following⟩ <;>
    omega

end Control

theorem instr_tame (name : String) (used : Nat) (here : p.code[k]? = some i)
    (fits : i.Fits p q stop k) (small : stop < 0x8000000000000000)
    (ordered : codeAddress p.codeBase q < codeAddress p.codeBase stop) (from_ : q ≤ k)
    (until_ : k < stop) : Tamed p name q stop k used i := by
  cases i with
  | load source =>
    obtain ⟨row, readable⟩ := row_operand p q stop used source
    exact ⟨_, _, rfl, .of_row (row.append (.toAcc readable rfl rfl))⟩
  | loadIndirect width => exact loadIndirect_tamed width
  | binary op right => exact ⟨_, _, instr_binary .., .of_row (row_binary p q stop used op right)⟩
  | store target =>
    refine ⟨_, _, rfl, .of_row ((row_pointerTo target).append
      (.keep (.append .acc (.fresh ?_ ?_)) nofun rfl))⟩ <;> omega
  | storeIndirect width => exact storeIndirect_tamed width
  | copyToTemp =>
    refine ⟨_, _, rfl, .of_row (.keep .acc ?_ rfl)⟩
    rintro t ⟨⟩
    exact ⟨rfl, trivial⟩
  | loadParam register source => exact loadParam_tamed source fits
  | storeParam register target =>
    refine ⟨_, _, bind_ok_iff.mpr ⟨(), checkRegister_ok_iff.mpr fits.2, rfl⟩,
      .of_row ((row_pointerTo target).append
        (.keep (.append (.other rfl fits) (.fresh ?_ ?_)) nofun rfl))⟩ <;> omega
  | loopIndex => exact loopIndex_tamed fits until_
  | ret => exact ⟨_, _, rfl, .of_exit .nil .acc (by simp [IL.Exit.labels])⟩
  | call entry => exact call_tamed fits
  | jump test target => exact jump_tamed small ordered from_ until_ fits
  | loopHead leave => exact loopHead_tamed small ordered from_ until_ here fits
  | loopNext body => exact loopNext_tamed small ordered from_ until_ fits
  | undefined => exact fits.elim

end Instructions

/-! ## Functions -/

section Functions

variable {p : Program} {name : String} {q stop k used : Nat} {routines : List Routine}
  {instrs : List Instr} {r : Routine}

theorem blocks_tame (name : String) (used : Nat) (stands : p.HasCode k instrs)
    (fitting : p.Fitting q stop k instrs) (small : stop < 0x8000000000000000)
    (ordered : codeAddress p.codeBase q < codeAddress p.codeBase stop) (from_ : q ≤ k)
    (until_ : k + instrs.length ≤ stop) :
    ∃ body count, blocks ⟨p, name, codeAddress p.codeBase q, codeAddress p.codeBase stop⟩ used
        (codeAddress p.codeBase k) instrs = .ok (body, used + count) ∧
      body.flatMap IL.Block.assigned = List.range' (used + 1) count ∧
      body.map IL.Block.label = (List.range' k instrs.length).map
        (fun (j : Nat) => IL.Label.code (codeAddress p.codeBase j)) ∧
      ∀ b ∈ body, ∃ u u', Tame p q stop u u' b := by
  induction instrs generalizing k used with
  | nil => exact ⟨[], 0, rfl, rfl, rfl, by simp⟩
  | cons i rest ih =>
    rw [length_cons] at until_
    have later : p.Fitting q stop (k + 1) rest := by
      intro j i here
      have fits := fitting (j + 1) i here
      rwa [Nat.add_comm j 1, ← Nat.add_assoc] at fits
    obtain ⟨b, used', first, tame⟩ :=
      instr_tame name used stands.head (fitting 0 i rfl) small ordered from_ (by omega)
    obtain ⟨own, rfl⟩ := Nat.exists_eq_add_of_le tame.numbered.le
    obtain ⟨body, count, others, assigned, labels, all⟩ :=
      ih (used + own) stands.tail later (by omega) (by omega)
    refine ⟨b :: body, own + count, ?_, ?_, ?_, ?_⟩
    · rw [blocks, bind_ok_iff]
      refine ⟨_, first, bind_ok_iff.mpr ⟨_, codeAddress_succ .. ▸ others, ?_⟩⟩
      rw [← Nat.add_assoc]
      rfl
    · have numbers := tame.numbered.assigned
      rw [Nat.add_sub_cancel_left] at numbers
      rw [flatMap_cons, assigned, IL.Block.assigned, numbers, Nat.add_right_comm,
        range'_append_1]
    · rw [map_cons, labels, instr_label first, length_cons, range'_succ,
        map_cons]
    · exact forall_mem_cons.mpr ⟨⟨used, used + own, tame⟩, all⟩

theorem mem_loopHeads_iff {head address : Int} :
    head ∈ loopHeads address instrs ↔
      ∃ k leave, instrs[k]? = some (.loopHead leave) ∧ head = further address k := by
  induction instrs generalizing address with
  | nil => simp [loopHeads]
  | cons i rest ih =>
    constructor
    · intro member
      have later (member : head ∈ loopHeads (wrap64 (address + 1)) rest) :
          ∃ k leave, (i :: rest)[k]? = some (.loopHead leave) ∧ head = further address k := by
        obtain ⟨k, leave, here, same⟩ := ih.mp member
        exact ⟨k + 1, leave, here, same⟩
      unfold loopHeads at member
      split at member
      · next leave =>
        rcases mem_cons.mp member with rfl | member
        · exact ⟨0, leave, rfl, rfl⟩
        · exact later member
      · exact later member
    · rintro ⟨k, leave, here, rfl⟩
      cases k with
      | zero =>
        cases here
        exact mem_cons_self
      | succ k =>
        have later := ih.mpr ⟨k, leave, here, rfl⟩
        unfold loopHeads
        split
        · exact mem_cons_of_mem _ later
        · exact later

/-- The first block sets all registers and counters to zero. -/
theorem prologue_tame {heads : List Int}
    (allowed : ∀ head ∈ heads, Allowed p q stop (.counter head)) (used : Nat) :
    Tame p q stop used used (prologue p.maxParams.toNat heads) := by
  have zero {t : Temp} (notFresh : t.fresh? = none) (allowed : Allowed p q stop t) :
      Row p q stop used used [.copy t (.int 0)] used := by
    refine .keep .nil ?_ rfl
    rintro t ⟨⟩
    exact ⟨notFresh, allowed⟩
  have acc : Row p q stop used used [.copy .acc (.int 0)] used := zero rfl trivial
  have tmp : Row p q stop used used [.copy .tmp (.int 0)] used := zero rfl trivial
  refine .of_row (((acc.append tmp).append (.of_forall ?_)).append (.of_forall ?_))
  · intro i member
    obtain ⟨register, few, rfl⟩ := mem_map.mp member
    have few := mem_range.mp few
    exact zero rfl ⟨by omega, by omega⟩
  · intro i member
    obtain ⟨head, listed, rfl⟩ := mem_map.mp member
    exact zero rfl (allowed head listed)

/-- A function whose blocks are tame is closed. -/
theorem function_closed {exported : Bool} {name : String}
    {body : List IL.Block} {names : List String} (params : 0 ≤ p.maxParams)
    (tame : ∀ b ∈ body, ∃ u u', Tame p q stop u u' b)
    (labels : body.map IL.Block.label = (List.range' q (stop - q)).map
        (fun (j : Nat) => IL.Label.code (codeAddress p.codeBase j)))
    (heads : ∀ head, head ∈ loopHeads (codeAddress p.codeBase q) instrs ↔
      ∃ j, q ≤ j ∧ j < stop ∧ p.HeadAt j ∧ head = codeAddress p.codeBase j)
    (inside : q ≤ stop) (small : stop < 0x8000000000000000)
    (known : ∀ proc ∈ p.procedures, functionName proc ∈ names) :
    IL.Function.Closed p.maxParams names ⟨exported, name, p.maxParams.toNat,
      prologue p.maxParams.toNat (loopHeads (codeAddress p.codeBase q) instrs) :: body ++
        [lastBlock (codeAddress p.codeBase stop)]⟩ := by
  have allTame : ∀ b ∈ prologue p.maxParams.toNat (loopHeads (codeAddress p.codeBase q) instrs) ::
      body ++ [lastBlock (codeAddress p.codeBase stop)], ∃ u u', Tame p q stop u u' b := by
    refine forall_mem_append.mpr ⟨forall_mem_cons.mpr ⟨?_, tame⟩, ?_⟩
    · exact ⟨0, 0, prologue_tame (fun head => (heads head).mp) 0⟩
    · exact forall_mem_singleton.mpr ⟨0, 0, .of_exit .nil .acc (by simp [IL.Exit.labels])⟩
  have allLabels : (prologue p.maxParams.toNat (loopHeads (codeAddress p.codeBase q) instrs) ::
      body ++ [lastBlock (codeAddress p.codeBase stop)]).map IL.Block.label =
        .start :: (List.range' q (stop - q + 1)).map
          (fun (j : Nat) => IL.Label.code (codeAddress p.codeBase j)) := by
    rw [map_append, map_cons, labels, range'_1_concat, map_append,
      Nat.add_sub_cancel' inside]
    rfl
  refine ⟨?_, ?_, ?_, ?_, ?_, ?_, ?_⟩
  · rw [allLabels, nodup_cons]
    refine ⟨by simp, pairwise_map.mpr ?_⟩
    refine List.Pairwise.imp_of_mem ?_ nodup_range'
    intro j j' member member' different same
    rw [mem_range'_1] at member member'
    exact different ((codeAddress_inj (by omega) (by omega)).mp (IL.Label.code.inj same))
  · intro b member e leaves l named
    obtain ⟨u, u', tame⟩ := allTame b member
    obtain ⟨target, rfl, j, from_, until_, rfl⟩ := tame.jumps e leaves l named
    rw [allLabels]
    refine mem_cons_of_mem _ (mem_map_of_mem (mem_range'_1.mpr ?_))
    omega
  · intro b member i instr callee called
    obtain ⟨u, u', tame⟩ := allTame b member
    obtain ⟨proc, listed, rfl⟩ := tame.calls i instr callee called
    exact known proc listed
  · intro b member head read
    obtain ⟨u, u', tame⟩ := allTame b member
    have counted := (heads head).mpr (tame.temps _ (mem_append_left _ read))
    refine ⟨_, rfl, mem_append_right _ ?_⟩
    exact mem_map_of_mem counted
  · exact Int.toNat_of_nonneg params
  · intro b member t inside register has
    obtain ⟨u, u', tame⟩ := allTame b member
    have allowed := tame.temps t inside
    cases t with
    | arg | param =>
      cases has
      exact allowed
    | _ => contradiction
  · intro b member
    obtain ⟨u, u', tame⟩ := allTame b member
    exact tame.numbered.inScope tame.leaves fun n above below => absurd below (by omega)

theorem assigned_function (params : Nat) (heads : List Int) (body : List IL.Block) (stop : Int) :
    (prologue params heads :: body ++ [lastBlock stop]).flatMap IL.Block.assigned =
      body.flatMap IL.Block.assigned := by
  have first : (prologue params heads).assigned = [] := by
    refine filterMap_eq_nil_iff.mpr fun i member => ?_
    simp only [prologue, mem_append, mem_cons, mem_map, not_mem_nil,
      or_false] at member
    rcases member with ((rfl | rfl) | ⟨_, -, rfl⟩) | ⟨_, -, rfl⟩ <;> rfl
  have last : (lastBlock stop).assigned = [] := rfl
  simp [first, last]

theorem mem_loopHeads_code (stands : p.HasCode q (r.code p.codeBase q)) (head : Int) :
    head ∈ loopHeads (codeAddress p.codeBase q) (r.code p.codeBase q) ↔
      ∃ j, q ≤ j ∧ j < q + r.size ∧ p.HeadAt j ∧ head = codeAddress p.codeBase j := by
  rw [mem_loopHeads_iff]
  constructor
  · rintro ⟨k, leave, here, rfl⟩
    obtain ⟨inside, -⟩ := List.getElem?_eq_some_iff.mp here
    refine ⟨q + k, Nat.le_add_right q k, ?_, ⟨leave, ?_⟩, further_codeAddress _ _ _⟩
    · rw [length_code] at inside
      omega
    · rw [stands k inside, here]
  · rintro ⟨j, from_, until_, ⟨leave, here⟩, rfl⟩
    obtain ⟨k, rfl⟩ := Nat.exists_eq_add_of_le from_
    refine ⟨k, leave, ?_, (further_codeAddress _ _ _).symm⟩
    rw [← stands k (by rw [length_code]; omega), here]

variable (made : p.MadeOf routines) (addressable : p.Addressable)
include made addressable

/-- The instructions between the entry and the stop of a routine are its code, unless its addresses
wrap. -/
theorem slice_routine (placed : Placed routines q r) :
    slice p (codeAddress p.codeBase q) (codeAddress p.codeBase (q + r.size)) =
      .ok (if codeAddress p.codeBase q < codeAddress p.codeBase (q + r.size)
        then r.code p.codeBase q else []) := by
  have fits := placed.end_le made
  unfold Program.Addressable at addressable
  unfold slice
  split
  · next empty => rw [if_neg (by omega)]
  · next ordered =>
    have ordered : codeAddress p.codeBase q < codeAddress p.codeBase (q + r.size) := by omega
    have distance := codeAddress_between (by omega) ordered (Nat.le_add_right q r.size)
      (Nat.le_refl _)
    have position : p.index? (codeAddress p.codeBase q) = some q :=
      Program.index?_codeAddress addressable (by omega)
    have count :
        (codeAddress p.codeBase (q + r.size) - codeAddress p.codeBase q).toNat = r.size := by
      omega
    rw [position, if_pos ordered]
    dsimp only
    rw [count, if_neg (by omega)]
    obtain ⟨before, after, rfl, rfl⟩ := placed
    rw [made.code, layout_append, layout, Nat.zero_add, drop_left' (by simp),
      take_left' (by simp)]

theorem function_tame (placed : Placed routines q r)
    (params : 0 ≤ p.maxParams ∧ p.maxParams ≤ maxParams) (used : Nat) :
    ∃ f count, function p used (r.procedure p.codeBase q) (codeAddress p.codeBase (q + r.size)) =
        .ok (f, used + count) ∧
      f.name = functionName (r.procedure p.codeBase q) ∧
      f.blocks.flatMap IL.Block.assigned = List.range' (used + 1) count ∧
      ∀ names, (∀ proc ∈ p.procedures, functionName proc ∈ names) → f.Closed p.maxParams names := by
  have fits := placed.end_le made
  have bound : q + r.size < 0x8000000000000000 := Nat.lt_of_le_of_lt fits addressable
  have cut := slice_routine made addressable placed
  by_cases ordered : codeAddress p.codeBase q < codeAddress p.codeBase (q + r.size)
  · rw [if_pos ordered] at cut
    have stands := placed.hasCode made
    obtain ⟨body, count, lowered, assigned, labels, tame⟩ :=
      blocks_tame r.name used stands (placed.fitting made) bound ordered (Nat.le_refl q) (by simp)
    refine ⟨_, count, function_of_blocks params cut lowered, rfl, ?_, fun names known => ?_⟩
    · rw [assigned_function, assigned]
    · apply function_closed params.1 tame _ _ (Nat.le_add_right q r.size) bound known
      · rw [labels, length_code, Nat.add_sub_cancel_left]
      · exact mem_loopHeads_code stands
  -- Addresses that wrap leave the function with no code, so there is nothing between its ends.
  · rw [if_neg ordered] at cut
    refine ⟨_, 0, function_of_blocks params cut rfl, rfl, ?_, fun names known => ?_⟩
    · rw [assigned_function]
      rfl
    · have noHead (head : Int) : head ∈ loopHeads (codeAddress p.codeBase (q + r.size)) [] ↔
          ∃ j, q + r.size ≤ j ∧ j < q + r.size ∧ p.HeadAt j ∧ head = codeAddress p.codeBase j := by
        simp only [loopHeads, not_mem_nil, false_iff]
        rintro ⟨j, from_, until_, -⟩
        omega
      refine function_closed (q := q + r.size) params.1 ?_ ?_ noHead (Nat.le_refl _) bound known
      · exact forall_mem_nil _
      · rw [Nat.sub_self]
        rfl

theorem functions_tame (params : 0 ≤ p.maxParams ∧ p.maxParams ≤ maxParams)
    {before after : List Routine} (split : routines = before ++ after) (used : Nat) :
    ∃ fs count,
      functions p used (procedures p.codeBase (extent before) after) = .ok fs ∧
      fs.map IL.Function.name =
        (procedures p.codeBase (extent before) after).map functionName ∧
      fs.flatMap (fun f => f.blocks.flatMap IL.Block.assigned) = List.range' (used + 1) count ∧
      ∀ names, (∀ proc ∈ p.procedures, functionName proc ∈ names) →
        ∀ f ∈ fs, f.Closed p.maxParams names := by
  induction after generalizing before used with
  | nil => exact ⟨[], 0, rfl, rfl, rfl, by simp⟩
  | cons r after ih =>
    have placed : Placed routines (extent before) r := ⟨before, after, split, rfl⟩
    obtain ⟨f, count, first, name, assigned, closed⟩ :=
      function_tame made addressable placed params used
    have behind : routines = (before ++ [r]) ++ after := by simp [split]
    obtain ⟨fs, others, rest, names, numbers, allClosed⟩ := ih behind (used + count)
    have extent : extent (before ++ [r]) = extent before + r.size := by
      simp [extent]
    rw [extent] at rest names
    refine ⟨f :: fs, count + others, ?_, ?_, ?_, ?_⟩
    · rw [procedures, functions, bind_ok_iff]
      refine ⟨(f, used + count), ?_, bind_ok_iff.mpr ⟨fs, rest, rfl⟩⟩
      rw [← first, ← made.stopAmong_eq split]
      rfl
    · rw [map_cons, names, name]
      rfl
    · rw [flatMap_cons, assigned, numbers, Nat.add_right_comm, range'_append_1]
    · intro names known
      exact forall_mem_cons.mpr ⟨closed names known, allClosed names known⟩

end Functions

theorem memory_isOk {p : Program} (from_ : 0 ≤ p.dataBase)
    (until_ : p.dataBase + p.data.size ≤ memorySize) : ∃ items, memory p = .ok items := by
  have end_ : p.dataEnd = p.dataBase + p.data.size := by
    unfold memorySize at until_
    rw [Program.dataEnd, wrap64_eq_bmod]
    exact Int.bmod_eq_of_le (by omega) (by omega)
  unfold memory
  rw [if_neg (by omega)]
  exact ⟨_, rfl⟩

/-- Too many parameters for a function are too many for the first procedure. -/
theorem program_crashes {p : Program} (twoBytes : p.wordSize = 2)
    (data : 0 ≤ p.dataBase ∧ p.dataBase + p.data.size ≤ memorySize) (some_ : p.procedures ≠ [])
    (many : maxParams < p.maxParams) : program p = .error (.crash (.badSize p.maxParams)) := by
  obtain ⟨items, image⟩ := memory_isOk data.1 data.2
  have crashes (proc : Procedure) (stop : Int) :
      function p 0 proc stop = .error (.crash (.badSize p.maxParams)) := by
    unfold function
    rw [if_pos (.inr many)]
    rfl
  unfold program
  rw [if_neg (not_not_intro twoBytes), image]
  cases listed : p.procedures with
  | nil => contradiction
  | cons proc rest =>
    simp only [functions, crashes]
    rfl

/-- An assembled program with words of two bytes and its data in memory is lowered to a closed
module, and printed as its text; labels and temporaries that are different are spelled differently
there. Only a program with procedures that have more parameters than a function can have is not
lowered. -/
theorem assembled_closed {settings : Settings} {modules : List (List Text)} {p : Program}
    (assembled : Assembly.program? settings modules = some p) (addressable : p.Addressable)
    (twoBytes : p.wordSize = 2) (params : 0 ≤ p.maxParams)
    (data : 0 ≤ p.dataBase ∧ p.dataBase + p.data.size ≤ memorySize) :
    (p.procedures ≠ [] ∧ maxParams < p.maxParams →
      program p = .error (.crash (.badSize p.maxParams))) ∧
    (p.procedures = [] ∨ p.maxParams ≤ maxParams →
      ∃ m, program p = .ok m ∧ Backend.render p .il = .ok m.render ∧ m.Closed p.maxParams) ∧
    Function.Injective IL.Label.render ∧ Function.Injective IL.Temp.render := by
  obtain ⟨routines, -, made⟩ := assembled_madeOf assembled addressable
  obtain ⟨items, image⟩ := memory_isOk data.1 data.2
  refine ⟨fun many => program_crashes twoBytes data many.1 many.2, fun few => ?_,
    IL.Label.render_injective, IL.Temp.render_injective⟩
  have lowered : ∃ fs, functions p 0 p.procedures = .ok fs ∧
      IL.Module.Closed p.maxParams ⟨items, fs⟩ := by
    rcases few with none_ | few
    · rw [none_]
      exact ⟨[], rfl, by simp, List.nodup_nil⟩
    · have all : routines = [] ++ routines := rfl
      obtain ⟨fs, count, lowered, names, numbers, closed⟩ :=
        functions_tame made addressable ⟨params, few⟩ all 0
      have whole : Routine.procedures p.codeBase (Routine.extent []) routines = p.procedures :=
        made.procedures.symm
      rw [whole] at lowered names
      refine ⟨fs, lowered, closed _ fun proc member => ?_, numbers ▸ List.nodup_range'⟩
      rw [names]
      exact List.mem_map_of_mem member
  obtain ⟨fs, lowered, closed⟩ := lowered
  have ok : program p = .ok ⟨items, fs⟩ := by
    unfold program
    rw [if_neg (not_not_intro twoBytes)]
    exact bind_ok_iff.mpr ⟨_, image, bind_ok_iff.mpr ⟨_, lowered, rfl⟩⟩
  refine ⟨⟨items, fs⟩, ok, ?_, closed⟩
  rw [Backend.render, ok]
  rfl

theorem assembled_closed_nestedLoops :
    Assembly.program? {} [nestedLoops] = some nestedProgram ∧
    ∃ m, program nestedProgram = .ok m ∧ m.Closed 4 ∧ m.functions.length = 2 := by
  have data : 0 ≤ nestedProgram.dataBase ∧
      nestedProgram.dataBase + nestedProgram.data.size ≤ memorySize := by decide
  obtain ⟨-, lowered, -⟩ :=
    assembled_closed nestedLoops_assembled nestedProgram_addressable rfl (by decide) data
  obtain ⟨m, ok, -, closed⟩ := lowered (.inr (by decide))
  obtain ⟨length, -⟩ := functions_ok (program_ok ok).2.2
  exact ⟨nestedLoops_assembled, m, ok, closed, length⟩

/-- With more registers than a function can have parameters, the shortest program is not lowered. -/
theorem manyRegisters_crashes :
    ∃ p, Assembly.program? { maxParams := 0x4000000000000000 } [["proc a()"].map Text.ofString] =
        some p ∧ p.Addressable ∧ p.wordSize = 2 ∧ 0 ≤ p.maxParams ∧ 0 ≤ p.dataBase ∧
      p.dataBase + p.data.size ≤ memorySize ∧
      program p = .error (.crash (.badSize 0x4000000000000000)) := by
  refine ⟨{ maxParams := 0x4000000000000000, data := #[0, 0], procedures := [⟨"a", 0x1000, 0⟩] },
    by decide +kernel, ?_, rfl, by decide, by decide, by decide, by decide +kernel⟩
  unfold Program.Addressable
  decide

end Lowering

end HighAsm
