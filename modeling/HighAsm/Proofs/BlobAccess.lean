import HighAsm.Proofs.Accesses
import HighAsm.Proofs.ILMachine
import HighAsm.Proofs.Layout
import HighAsm.Proofs.LoweredForm

/-!
# Where lowered code touches storage

Every load and every store of a lowered program is the access of the instruction that its block
stands for: a pointer is the start of the memory blob and the cell of the address that the machine
would use. A byte and a word below the last cell are then touched exactly where the machine touches
them. The word in the last cell is different. The machine goes on in the first cell, and lowered
code goes on in the byte behind the blob.
-/

namespace HighAsm

open List

namespace IL

/-- The addresses that an access of a width touches, from the first one on. -/
def span (width : Width) (start : BitVec 64) : List (BitVec 64) :=
  match width with
  | .byte => [start]
  | .word => [start, start + 1]

namespace Instr

/-- The addresses that a load or a store touches. -/
def touched? (d : Data) : Instr → Option (List (BitVec 64))
  | load width _ p | store width _ p => (p.long? d).map (span width)
  | _ => none

/-- Whether an instruction writes to storage. -/
def writes : Instr → Bool
  | store _ _ _ => true
  | _ => false

/-- The instruction works on temporaries alone. -/
def Quiet : Instr → Prop
  | load _ _ _ | store _ _ _ | call _ _ _ => False
  | _ => True

/-- A property of every instruction in a row when control comes to it. A call may come back with any
data. -/
def Guarded (blob : BitVec 64) (P : Data → Instr → Prop) : List Instr → Data → Prop
  | [], _ => True
  | call _ _ _ :: rest, _ => ∀ d, Guarded blob P rest d
  | i :: rest, d => P d i ∧ ∀ d', i.effect? blob d = some d' → Guarded blob P rest d'

end Instr

/-! ## What holds of every instruction that a run comes to -/

section Runs

variable {m : Module} {blob : BitVec 64} {P : Label → Data → Instr → Prop} {s t : State}

/-- The function is one of the module, and the blocks behind the current one are its blocks. -/
def Activation.Belongs (m : Module) (a : Activation) : Prop :=
  a.function ∈ m.functions ∧ ∀ b ∈ a.later, b ∈ a.function.blocks

/-- A property holds of the instructions that are left in the current block, and will hold of those
that are left in the blocks of the callers. -/
structure State.Watched (m : Module) (blob : BitVec 64) (P : Label → Data → Instr → Prop)
    (s : State) : Prop where
  belongs : s.current.Belongs m
  guarded : Instr.Guarded blob (P s.current.here.label) s.current.here.instrs s.data
  callers : ∀ caller ∈ s.callers, caller.activation.Belongs m ∧
    ∀ d, Instr.Guarded blob (P caller.activation.here.label) caller.activation.here.instrs d

variable (all : ∀ f ∈ m.functions, ∀ b ∈ f.blocks, ∀ d, Instr.Guarded blob (P b.label) b.instrs d)

include all

theorem State.Watched.resume {storage : Storage} {f : Function} {temps : Temp → Option Datum}
    {blocks : List Block} {a : Activation} {callers : List Caller} (known : f ∈ m.functions)
    (inside : ∀ b ∈ blocks, b ∈ f.blocks) (resumed : f.resume? temps blocks = some a)
    (waiting : ∀ caller ∈ callers, caller.activation.Belongs m ∧
      ∀ d, Instr.Guarded blob (P caller.activation.here.label) caller.activation.here.instrs d) :
    State.Watched m blob P ⟨storage, a, callers⟩ := by
  cases blocks with
  | nil => contradiction
  | cons b later =>
    cases resumed
    obtain ⟨first, others⟩ := forall_mem_cons.mp inside
    exact ⟨⟨known, others⟩, all f known b first _, waiting⟩

theorem State.Watched.goto (watched : s.Watched m blob P) {blocks : List Block}
    (inside : ∀ b ∈ blocks, b ∈ s.current.function.blocks) (goes : s.goto blocks = .next t) :
    t.Watched m blob P := by
  unfold State.goto at goes
  split at goes
  · next a resumed =>
    obtain rfl := Outcome.next.inj goes
    exact .resume all watched.belongs.1 inside resumed watched.callers
  · contradiction

omit all in
theorem State.Watched.leave (watched : s.Watched m blob P) {value : BitVec 32}
    (goes : s.leave value = .next t) : t.Watched m blob P := by
  unfold State.leave at goes
  split at goes
  · contradiction
  · next caller others waiting =>
    obtain rfl := Outcome.next.inj goes
    have callers := watched.callers
    rw [waiting] at callers
    obtain ⟨⟨belongs, guarded⟩, rest⟩ := forall_mem_cons.mp callers
    exact ⟨belongs, guarded _, rest⟩

theorem State.Watched.exit (watched : s.Watched m blob P) {exit? : Option Exit}
    (goes : s.exit exit? = .next t) : t.Watched m blob P := by
  have labelled (label : Label) :
      ∀ b ∈ s.current.function.blocksFrom label, b ∈ s.current.function.blocks :=
    fun b member => (dropWhile_sublist _).subset member
  unfold State.exit at goes
  split at goes
  · exact watched.goto all watched.belongs.2 goes
  · exact watched.goto all (labelled _) goes
  · split at goes
    · exact watched.goto all (labelled _) goes
    · contradiction
  · split at goes
    · exact watched.leave goes
    · contradiction

theorem State.Watched.enter (watched : s.Watched m blob P) {target : Temp} {name : String}
    {args : List Value} {rest : List Instr}
    (here : s.current.here.instrs = .call target name args :: rest)
    (goes : s.enter m target name args rest = .next t) : t.Watched m blob P := by
  have guarded := watched.guarded
  rw [here] at guarded
  unfold State.enter at goes
  split at goes
  · next callee begun =>
    obtain rfl := Outcome.next.inj goes
    obtain ⟨f, found, begun⟩ := Option.bind_eq_some_iff.mp begun
    obtain ⟨words, -, begun⟩ := Option.bind_eq_some_iff.mp begun
    unfold Function.begin? at begun
    split at begun
    · have known := mem_of_find?_eq_some found
      apply State.Watched.resume all known (fun _ member => member) begun
      exact forall_mem_cons.mpr ⟨⟨watched.belongs, guarded⟩, watched.callers⟩
    · contradiction
  · contradiction

theorem State.Watched.step (watched : s.Watched m blob P) (goes : s.step m blob = .next t) :
    t.Watched m blob P := by
  unfold State.step at goes
  split at goes
  · exact watched.exit all goes
  · next here => exact watched.enter all here goes
  · next i rest notCall here =>
    split at goes
    · next d effect =>
      obtain rfl := Outcome.next.inj goes
      have guarded := watched.guarded
      rw [here] at guarded
      refine ⟨watched.belongs, ?_, watched.callers⟩
      cases i with
      | call => contradiction
      | _ => exact guarded.2 d effect
    · contradiction

/-- Every instruction that a run of a function comes to has the property, unless it is a call. -/
theorem State.Watched.of_reaches {f : Function} {words : List (BitVec 32)} {a : Activation}
    {storage : Storage} (known : f ∈ m.functions) (begun : f.begin? words = some a)
    (reaches : State.Reaches m blob ⟨storage, a, []⟩ s) : s.Watched m blob P := by
  apply reaches.keeps
  · unfold Function.begin? at begun
    split at begun
    · exact .resume all known (fun _ member => member) begun (by simp)
    · contradiction
  · intro s t watched goes
    exact watched.step all goes

end Runs

/-! ## The accesses of lowered instructions -/

/-- The address in storage of a cell of the blob. -/
def cellAt (blob : BitVec 64) (address : Int) : BitVec 64 :=
  blob + BitVec.ofNat 64 (Memory.cell address)

/-- An access of lowered code is the access of the instruction that was lowered. -/
def Instr.Mirrors (blob : BitVec 64) (j : HighAsm.Instr) (d : Data) (i : Instr) : Prop :=
  ∀ bytes, i.touched? d = some bytes → ∃ n access,
    (j.Indirect → Lowering.acc.word? d = some (BitVec.ofInt 32 n)) ∧
    j.access? n = some access ∧ access.writes = i.writes ∧
    bytes = span access.width (cellAt blob access.address)

theorem Instr.mirrors_of_quiet {blob : BitVec 64} {j : HighAsm.Instr} {d : Data} {i : Instr}
    (quiet : i.Quiet) : i.Mirrors blob j d := by
  intro bytes touched
  cases i with
  | load | store => exact quiet.elim
  | _ => contradiction

theorem Instr.Guarded.mono {blob : BitVec 64} {P Q : Data → Instr → Prop} {code : List Instr}
    {d : Data} (guarded : Guarded blob P code d) (implies : ∀ d i, P d i → Q d i) :
    Guarded blob Q code d := by
  induction code generalizing d with
  | nil => trivial
  | cons i rest ih =>
    cases i with
    | call => exact fun d => ih (guarded d)
    | _ => exact ⟨implies _ _ guarded.1, fun d' effect => ih (guarded.2 d' effect)⟩

section Rows

variable {blob : BitVec 64} {j : HighAsm.Instr}

theorem Instr.guarded_of_quiet_append {before rest : List Instr} {d : Data}
    (quiet : ∀ i ∈ before, i.Quiet)
    (others : ∀ d', effects? blob before d = some d' → Guarded blob (Mirrors blob j) rest d') :
    Guarded blob (Mirrors blob j) (before ++ rest) d := by
  induction before generalizing d with
  | nil => exact others d rfl
  | cons i before ih =>
    obtain ⟨first, quiet⟩ := forall_mem_cons.mp quiet
    have behind (d' : Data) (effect : i.effect? blob d = some d') :
        Guarded blob (Mirrors blob j) (before ++ rest) d' := by
      apply ih quiet
      intro last effects
      exact others last (by rw [effects?, effect, Option.bind_some, effects])
    cases i with
    | load | store | call => exact first.elim
    | _ => exact ⟨mirrors_of_quiet first, behind⟩

theorem Instr.guarded_of_quiet {code : List Instr} (quiet : ∀ i ∈ code, i.Quiet) (d : Data) :
    Guarded blob (Mirrors blob j) code d := by
  have whole : Guarded blob (Mirrors blob j) (code ++ []) d :=
    guarded_of_quiet_append quiet fun _ _ => trivial
  rwa [append_nil] at whole

/-- Instructions with one access among them, which mirrors an instruction where control comes to
it. -/
theorem Instr.guarded_access {before after : List Instr} {i : Instr} {d : Data}
    (quietBefore : ∀ i ∈ before, i.Quiet)
    (mirrors : ∀ d', effects? blob before d = some d' → i.Mirrors blob j d')
    (noCall : ∀ t f args, i ≠ call t f args) (quietAfter : ∀ i ∈ after, i.Quiet) :
    Guarded blob (Mirrors blob j) (before ++ i :: after) d := by
  apply guarded_of_quiet_append quietBefore
  intro d' effects
  cases i with
  | call t f args => exact absurd rfl (noCall t f args)
  | _ => exact ⟨mirrors d' effects, fun last _ => guarded_of_quiet quietAfter last⟩

end Rows

end IL

namespace Lowering

open IL

variable {blob : BitVec 64} {d : Data} {used : Nat}

theorem ofInt_mod (address : Int) :
    BitVec.ofInt 64 (address % memorySize) = BitVec.ofNat 64 (Memory.cell address) := by
  have positive : 0 ≤ address % memorySize := Int.emod_nonneg _ (by decide)
  have same : (Memory.cell address : Int) = address % memorySize := Int.toNat_of_nonneg positive
  rw [← BitVec.ofInt_natCast, same]

/-- The low half of a word, as the number of a cell. -/
theorem masked_eq_cell (x : BitVec 32) :
    (x &&& BitVec.ofInt 32 65535).setWidth 64 = BitVec.ofNat 64 (Memory.cell x.toInt) := by
  apply BitVec.eq_of_toNat_eq
  have mask : (BitVec.ofInt 32 65535).toNat = 2 ^ 16 - 1 := rfl
  rw [BitVec.toNat_setWidth, BitVec.toNat_and, mask, Nat.and_two_pow_sub_one_eq_mod,
    BitVec.toNat_ofNat, Memory.cell, BitVec.toInt_eq_toNat_cond]
  split <;> omega

theorem effects?_pointerTo (address : Int) :
    IL.Instr.effects? blob (pointerTo used address).instrs d =
      some (d.assign (.fresh (used + 1)) (.long (cellAt blob address))) := by
  simp only [pointerTo, IL.Instr.effects?, IL.Instr.effect?, Value.long?, ofInt_mod, cellAt,
    Option.map_some, Option.bind_some]

theorem effects?_pointerAcc :
    IL.Instr.effects? blob (pointerAcc used).instrs d =
      (acc.word? d).map fun x =>
        ((d.assign (.fresh (used + 1)) (.word (x &&& BitVec.ofInt 32 65535))).assign
          (.fresh (used + 2)) (.long (BitVec.ofNat 64 (Memory.cell x.toInt)))).assign
          (.fresh (used + 3)) (.long (cellAt blob x.toInt)) := by
  cases held : acc.word? d with
  | none => simp [pointerAcc, IL.Instr.effects?, IL.Instr.effect?, held]
  | some x =>
    simp [pointerAcc, IL.Instr.effects?, IL.Instr.effect?, held, operate?, Datum.low, Datum.long?,
      ← masked_eq_cell, cellAt]

section Blocks

variable {c : Context} {used' : Nat} {address : Int} {i : IL.Instr} {j : Instr} {b : IL.Block}
  {width : Width} {after : List IL.Instr}

theorem guarded_pointerTo (direct : ¬ j.Indirect)
    (accesses : j.access? 0 = some ⟨i.writes, width, address⟩)
    (touches : ∀ d, i.touched? d = ((pointerTo used address).value.long? d).map (span width))
    (noCall : ∀ t f args, i ≠ .call t f args) (quiet : ∀ i ∈ after, i.Quiet) :
    IL.Instr.Guarded blob (IL.Instr.Mirrors blob j)
      ((pointerTo used address).instrs ++ i :: after) d := by
  apply IL.Instr.guarded_access _ _ noCall quiet
  · exact forall_mem_singleton.mpr trivial
  · intro d' effects bytes touched
    rw [effects?_pointerTo, Option.some.injEq] at effects
    subst effects
    refine ⟨0, _, fun indirect => absurd indirect direct, accesses, rfl, ?_⟩
    rw [touches] at touched
    simpa [pointerTo, Datum.long?, eq_comm] using touched

theorem guarded_pointerAcc (accesses : ∀ n, j.access? n = some ⟨i.writes, width, n⟩)
    (touches : ∀ d, i.touched? d = ((pointerAcc used).value.long? d).map (span width))
    (noCall : ∀ t f args, i ≠ .call t f args) (quiet : ∀ i ∈ after, i.Quiet) :
    IL.Instr.Guarded blob (IL.Instr.Mirrors blob j)
      ((pointerAcc used).instrs ++ i :: after) d := by
  apply IL.Instr.guarded_access _ _ noCall quiet
  · simp [pointerAcc, IL.Instr.Quiet]
  · intro d' effects bytes touched
    rw [effects?_pointerAcc] at effects
    obtain ⟨x, held, rfl⟩ := Option.map_eq_some_iff.mp effects
    refine ⟨x.toInt, _, fun _ => ?_, accesses x.toInt, rfl, ?_⟩
    · simpa using held
    · rw [touches] at touched
      simpa [pointerAcc, Datum.long?, eq_comm] using touched

theorem guarded_operand {source : Operand} (direct : ¬ j.Indirect)
    (accesses : j.access? 0 = source.access?) (quiet : ∀ i ∈ after, i.Quiet) :
    IL.Instr.Guarded blob (IL.Instr.Mirrors blob j) ((operand used source).instrs ++ after) d := by
  cases source with
  | const n => exact IL.Instr.guarded_of_quiet quiet d
  | var address => exact guarded_pointerTo direct accesses (fun _ => rfl) nofun quiet

theorem instr_guarded (ok : instr c used address j = .ok (b, used')) (d : Data) :
    IL.Instr.Guarded blob (IL.Instr.Mirrors blob j) b.instrs d := by
  cases j with
  | load source =>
    cases ok
    exact guarded_operand not_false rfl (forall_mem_singleton.mpr trivial)
  | loadIndirect width | storeIndirect width =>
    cases ok
    exact guarded_pointerAcc (fun _ => rfl) (fun _ => rfl) nofun
      (forall_mem_singleton.mpr trivial)
  | binary op right =>
    rw [instr_binary] at ok
    cases ok
    simp only [binary]
    split
    · exact guarded_operand not_false rfl (by simp [IL.Instr.Quiet])
    · exact guarded_operand not_false rfl (by simp [IL.Instr.Quiet])
  | store target =>
    cases ok
    exact guarded_pointerTo not_false rfl (fun _ => rfl) nofun (by simp)
  | loadParam register source =>
    obtain ⟨_, -, ok⟩ := bind_ok_iff.mp ok
    cases ok
    exact guarded_operand not_false rfl (forall_mem_singleton.mpr trivial)
  | storeParam register target =>
    obtain ⟨_, -, ok⟩ := bind_ok_iff.mp ok
    cases ok
    exact guarded_pointerTo not_false rfl (fun _ => rfl) nofun (by simp)
  | copyToTemp | loopIndex | ret =>
    cases ok
    exact IL.Instr.guarded_of_quiet (by simp [IL.Instr.Quiet]) d
  | loopHead | loopNext =>
    obtain ⟨_, -, ok⟩ := bind_ok_iff.mp ok
    cases ok
    exact IL.Instr.guarded_of_quiet (by simp [IL.Instr.Quiet]) d
  | jump test =>
    obtain ⟨_, -, ok⟩ := bind_ok_iff.mp ok
    cases test <;>
      · cases ok
        exact IL.Instr.guarded_of_quiet (by simp [IL.Instr.Quiet]) d
  | call entry =>
    simp only [instr] at ok
    split at ok
    · contradiction
    · cases ok
      exact fun _ => trivial
  | undefined => contradiction

theorem prologue_guarded (params : Nat) (heads : List Int) (d : Data) :
    IL.Instr.Guarded blob (IL.Instr.Mirrors blob j) (prologue params heads).instrs d := by
  apply IL.Instr.guarded_of_quiet
  simp only [prologue, forall_mem_append, forall_mem_map, forall_mem_cons]
  simp [IL.Instr.Quiet]

end Blocks

/-- Where control comes to a load or a store, it is the access of the instruction at the address of
the block. -/
def MirrorsAt (p : Program) (blob : BitVec 64) (label : IL.Label) (d : Data) (i : IL.Instr) :
    Prop :=
  ∀ bytes, i.touched? d = some bytes →
    ∃ address j, label = .code address ∧ p.instr? address = some j ∧ i.Mirrors blob j d

theorem block_guarded {p : Program} {module : Module} (lowered : program p = .ok module)
    (addressable : p.Addressable) {f : Function} (known : f ∈ module.functions) {b : IL.Block}
    (member : b ∈ f.blocks) (d : Data) :
    IL.Instr.Guarded blob (MirrorsAt p blob b.label) b.instrs d := by
  obtain ⟨proc, u, u', stop, -, made⟩ := exists_function lowered known
  rcases block_cases addressable made member with ⟨params, heads, rfl⟩ | rfl |
    ⟨c, u, u', address, j, -, here, made⟩
  · apply IL.Instr.Guarded.mono (prologue_guarded (j := .ret) params heads d)
    intro d i mirrors bytes touched
    obtain ⟨_, _, -, impossible, -⟩ := mirrors bytes touched
    contradiction
  · trivial
  · apply (instr_guarded made d).mono
    intro d i mirrors bytes touched
    exact ⟨address, j, instr_label made, here, mirrors⟩

end Lowering

/-! ## Inside and outside of the blob -/

namespace IL

/-- The address is one of the 65536 that the blob takes. -/
def InBlob (blob address : BitVec 64) : Prop := (address - blob).toNat < Memory.size

theorem inBlob_iff {blob : BitVec 64} {k : Nat} (small : k ≤ Memory.size) :
    InBlob blob (blob + BitVec.ofNat 64 k) ↔ k < Memory.size := by
  unfold Memory.size at small
  have offset : (blob + BitVec.ofNat 64 k - blob).toNat = k := by
    rw [BitVec.add_comm, BitVec.add_sub_cancel, BitVec.toNat_ofNat]
    exact Nat.mod_eq_of_lt (by omega)
  rw [InBlob, offset]

section Spans

variable {blob : BitVec 64} {access : Access}

theorem span_of_wraps (wraps : access.Wraps) :
    span access.width (cellAt blob access.address) = [blob + 0xffff, blob + 0x10000] := by
  obtain ⟨word, last⟩ := wraps
  rw [word, cellAt, last, span, BitVec.add_assoc]
  rfl

theorem span_of_not_wraps (unwrapped : ¬ access.Wraps) :
    span access.width (cellAt blob access.address) =
      access.cells.map fun k => blob + BitVec.ofNat 64 k := by
  obtain ⟨writes, _ | _, address⟩ := access
  · have next : Memory.cell (address + 1) = Memory.cell address + 1 := by
      have inner : Memory.cell address ≠ 0xffff := fun last => unwrapped ⟨rfl, last⟩
      unfold Memory.cell at inner ⊢
      omega
    simp only [span, cellAt, Access.cells, next, map_cons, map_nil, BitVec.add_assoc,
      BitVec.ofNat_add]
    rfl
  · rfl

/-- Without a word in the last cell the addresses are those of the cells, and only then. -/
theorem span_eq_cells_iff :
    (span access.width (cellAt blob access.address) =
      access.cells.map fun k => blob + BitVec.ofNat 64 k) ↔ ¬ access.Wraps := by
  refine ⟨fun same wraps => ?_, span_of_not_wraps⟩
  have next : Memory.cell (access.address + 1) = 0 := by
    have last := wraps.2
    unfold Memory.cell at last ⊢
    omega
  rw [span_of_wraps wraps, Access.cells, wraps.1] at same
  simp [next] at same

theorem span_inBlob_iff :
    (∀ byte ∈ span access.width (cellAt blob access.address), InBlob blob byte) ↔
      ¬ access.Wraps := by
  constructor
  · intro inside wraps
    rw [span_of_wraps wraps] at inside
    have behind : InBlob blob (blob + BitVec.ofNat 64 0x10000) := inside _ (by simp)
    exact absurd ((inBlob_iff (Nat.le_refl _)).mp behind) (Nat.lt_irrefl _)
  · intro unwrapped
    rw [span_of_not_wraps unwrapped]
    intro byte member
    obtain ⟨k, cell, rfl⟩ := mem_map.mp member
    have small := access.cells_lt k cell
    exact (inBlob_iff (Nat.le_of_lt small)).mpr small

end Spans

end IL

namespace Lowering

open IL

/-- Whatever a run of lowered code comes to load or to store belongs to the instruction that the
block stands for. The bytes are the cells that the machine touches in carrying out that instruction
with the same accumulator, each of them and no others, all of them in the blob, except when they are
the word in the last cell: then they are the last byte of the blob and the byte behind it. -/
theorem run_touches_cells {p : Program} {module : Module} (lowered : program p = .ok module)
    (addressable : p.Addressable) {blob : BitVec 64} {f : Function} (known : f ∈ module.functions)
    {words : List (BitVec 32)} {a : Activation} (begun : f.begin? words = some a)
    {storage : Storage} {s : State} (reaches : State.Reaches module blob ⟨storage, a, []⟩ s)
    {i : IL.Instr} {rest : List IL.Instr} (next : s.current.here.instrs = i :: rest)
    {bytes : List (BitVec 64)} (touched : i.touched? s.data = some bytes) :
    ∃ address j n access, s.current.here.label = .code address ∧ p.instr? address = some j ∧
      (j.Indirect → acc.word? s.data = some (BitVec.ofInt 32 n)) ∧
      j.access? n = some access ∧ access.writes = i.writes ∧
      (∀ m : Machine, m.acc = n → m.TouchesOnly p address j access.cells) ∧
      (∀ (m m' : Machine) (pc : Int), m.acc = n → m.execute p address j = .next pc m' →
        ∀ k ∈ access.cells, m.Touches p address j k) ∧
      (bytes = (access.cells.map fun k => blob + BitVec.ofNat 64 k) ↔ ¬ access.Wraps) ∧
      ((∀ byte ∈ bytes, InBlob blob byte) ↔ ¬ access.Wraps) ∧
      (access.Wraps → bytes = [blob + 0xffff, blob + 0x10000]) := by
  have watched : s.Watched module blob (MirrorsAt p blob) :=
    .of_reaches (fun f known b member d => block_guarded lowered addressable known member d)
      known begun reaches
  have guarded := watched.guarded
  rw [next] at guarded
  have mirrorsAt : MirrorsAt p blob s.current.here.label s.data i := by
    cases i with
    | call => contradiction
    | _ => exact guarded.1
  obtain ⟨address, j, label, here, mirrors⟩ := mirrorsAt bytes touched
  obtain ⟨n, access, held, accesses, writes, rfl⟩ := mirrors bytes touched
  refine ⟨address, j, n, access, label, here, held, accesses, writes, ?_, ?_, span_eq_cells_iff,
    span_inBlob_iff, span_of_wraps⟩
  · rintro m rfl
    have touches := Machine.execute_touchesOnly (program_ok lowered).1 address j (m := m)
    rwa [HighAsm.Instr.cells, accesses] at touches
  · rintro m m' pc rfl carried
    have touches := Machine.execute_touches (program_ok lowered).1 carried
    rwa [HighAsm.Instr.cells, accesses] at touches

/-- What the first function of a lowered program touches next after a number of steps, on zeros. -/
def touchedAfter? (p : Program) (words : List (BitVec 32)) (steps : Nat) :
    Option (List (BitVec 64)) :=
  (program p).toOption.bind fun module => module.functions.head?.bind fun f =>
    (f.begin? words).bind fun a => (State.after module 0 steps ⟨fun _ => 0, a, []⟩).bind fun s =>
      s.current.here.instrs.head?.bind (·.touched? s.data)

theorem exists_run_of_touchedAfter? {p : Program} {words : List (BitVec 32)} {steps : Nat}
    {bytes : List (BitVec 64)} (touched : touchedAfter? p words steps = some bytes) :
    ∃ module f a s i rest, program p = .ok module ∧ f ∈ module.functions ∧
      f.begin? words = some a ∧ State.Reaches module 0 ⟨fun _ => 0, a, []⟩ s ∧
      s.current.here.instrs = i :: rest ∧ i.touched? s.data = some bytes := by
  obtain ⟨module, lowered, touched⟩ := Option.bind_eq_some_iff.mp touched
  obtain ⟨f, first, touched⟩ := Option.bind_eq_some_iff.mp touched
  obtain ⟨a, begun, touched⟩ := Option.bind_eq_some_iff.mp touched
  obtain ⟨s, goes, touched⟩ := Option.bind_eq_some_iff.mp touched
  obtain ⟨i, next, touched⟩ := Option.bind_eq_some_iff.mp touched
  obtain ⟨rest, here⟩ := head?_eq_some_iff.mp next
  exact ⟨module, f, a, s, i, rest, ok_of_toOption lowered, mem_of_head? first, begun,
    ⟨steps, goes⟩, here, touched⟩

/-- A procedure that stores a word where its parameter points. -/
def pokeSource : List Text := ["proc poke(p)", "1>p!0"].map Text.ofString

/-- The program that `pokeSource` is assembled to. -/
def poke : Program :=
  { code := #[.storeParam 0 0x2002, .load (.const 1), .copyToTemp, .load (.var 0x2002),
      .binary .add (.const 0), .storeIndirect .word]
    data := #[0, 0, 0, 0]
    procedures := [⟨"poke", 0x1000, 1⟩] }

theorem poke_assembled : Assembly.program? {} [pokeSource] = some poke := by
  decide +kernel

theorem poke_addressable : poke.Addressable := by
  decide

theorem run_touches_cells_poke :
    ∃ module f a s i rest, program poke = .ok module ∧ f ∈ module.functions ∧
      f.begin? [0x3000, 0, 0, 0] = some a ∧ State.Reaches module 0 ⟨fun _ => 0, a, []⟩ s ∧
      s.current.here.instrs = i :: rest ∧ i.touched? s.data = some [0x3000, 0x3001] ∧
      ∃ address j n access, s.current.here.label = .code address ∧ poke.instr? address = some j ∧
        j.access? n = some access ∧ ¬ access.Wraps ∧
        [0x3000, 0x3001] = access.cells.map fun k => (0 : BitVec 64) + BitVec.ofNat 64 k := by
  have touched : touchedAfter? poke [0x3000, 0, 0, 0] 24 = some [0x3000, 0x3001] := by
    decide +kernel
  obtain ⟨module, f, a, s, i, rest, run⟩ := exists_run_of_touchedAfter? touched
  obtain ⟨lowered, known, begun, reaches, next, touched⟩ := run
  obtain ⟨address, j, n, access, label, here, -, accesses, -, -, -, cells, inside, -⟩ :=
    run_touches_cells lowered poke_addressable known begun reaches next touched
  have unwrapped : ¬ access.Wraps := by
    apply inside.mp
    refine List.forall_mem_cons.mpr ⟨?_, List.forall_mem_singleton.mpr ?_⟩ <;>
      · unfold InBlob
        decide
  exact ⟨module, f, a, s, i, rest, lowered, known, begun, reaches, next, touched, address, j, n,
    access, label, here, accesses, unwrapped, cells.mpr unwrapped⟩

/-- Given the last address, the procedure stores a byte behind the blob. -/
theorem poke_leaves_blob :
    Assembly.program? {} [pokeSource] = some poke ∧
    ∃ module f a s i rest, program poke = .ok module ∧ f ∈ module.functions ∧
      f.begin? [0xffff, 0, 0, 0] = some a ∧ State.Reaches module 0 ⟨fun _ => 0, a, []⟩ s ∧
      s.current.here.instrs = i :: rest ∧ i.touched? s.data = some [0xffff, 0x10000] ∧
      ¬ InBlob 0 0x10000 ∧ (Access.mk true .word 0xffff).cells = [0xffff, 0] := by
  have touched : touchedAfter? poke [0xffff, 0, 0, 0] 24 = some [0xffff, 0x10000] := by
    decide +kernel
  obtain ⟨module, f, a, s, i, rest, run⟩ := exists_run_of_touchedAfter? touched
  obtain ⟨lowered, known, begun, reaches, next, touched⟩ := run
  refine ⟨poke_assembled, module, f, a, s, i, rest, lowered, known, begun, reaches, next, touched,
    ?_, by decide⟩
  unfold InBlob
  decide

end Lowering

end HighAsm
