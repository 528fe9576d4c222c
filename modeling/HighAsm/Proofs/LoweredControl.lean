import HighAsm.Proofs.BlockEffects

/-!
# Control in lowered code

Control of lowered code goes from label to label. `Comes` says that it comes from one label to
another of the same function, whatever callers wait. A function `Hosts` the code of a routine when
it has a first block, then the block of every instruction in order, and then a return. The blocks of
instructions that steer control are gone through here one by one: each comes to the label of the
position that the machine goes on from.
-/

namespace HighAsm

open List

namespace IL

/-- Control stands at a label of a function. -/
structure State.At (s : State) (f : Function) (label : Label) (d : Data) (callers : List Caller) :
    Prop where
  function : s.current.function = f
  data : s.data = d
  callers : s.callers = callers
  blocks : s.current.here :: s.current.later = f.blocksFrom label

/-- Control comes from a label of a function to another one. -/
def Function.Comes (m : Module) (blob : BitVec 64) (f : Function) (from_ : Label) (d : Data)
    (to_ : Label) (d' : Data) : Prop :=
  ∀ callers s, s.At f from_ d callers → ∃ t, t.At f to_ d' callers ∧ State.Reaches m blob s t

/-- The blocks that control goes to from the end of a block. -/
def Function.successors? (f : Function) (later : List Block) (d : Data) :
    Option Exit → Option (List Block)
  | none => some later
  | some (.jump label) => some (f.blocksFrom label)
  | some (.branch v nonZero zero) =>
    (v.word? d).map fun x => f.blocksFrom (if x != 0 then nonZero else zero)
  | some (.ret _) => none

section Control

variable {m : Module} {blob : BitVec 64} {f : Function} {from_ to_ : Label} {d d' : Data}
  {b : Block} {later : List Block}

section

variable {callers : List Caller} {s : State} (at_ : s.At f from_ d callers)
  (here : f.blocksFrom from_ = b :: later)
include at_ here

theorem State.At.eq : s = ⟨d.storage, ⟨f, d.temps, b, later⟩, callers⟩ := by
  obtain ⟨rfl, rfl, rfl, blocks⟩ := at_
  obtain ⟨rfl, rfl⟩ := List.cons.inj (blocks.trans here)
  rfl

/-- The instructions of a block are carried out, and then the block is to be left. -/
theorem State.At.reaches_end (effects : Instr.effects? blob b.instrs d = some d') :
    Reaches m blob s ⟨d'.storage, ⟨f, d'.temps, { b with instrs := [] }, later⟩, callers⟩ := by
  obtain rfl := at_.eq here
  exact reaches_effects (append_nil _).symm effects

end

/-- A call begins a function, and waits for it. -/
theorem State.At.enters {callers : List Caller} {s : State} {label : Label} {target : Temp}
    {name : String} {args : List Value} {words : List (BitVec 32)} {g : Function} {a : Activation}
    (at_ : s.At f from_ d callers)
    (here : f.blocksFrom from_ = ⟨label, [.call target name args], none⟩ :: later)
    (found : m.function? name = some g) (passed : Value.words? d args = some words)
    (begun : g.begin? words = some a) :
    s.step m blob = .next ⟨d.storage, a,
      ⟨target, ⟨f, d.temps, ⟨label, [], none⟩, later⟩⟩ :: callers⟩ := by
  let calling : State :=
    ⟨d.storage, ⟨f, d.temps, ⟨label, [.call target name args], none⟩, later⟩, callers⟩
  have passed : Value.words? calling.data args = some words := passed
  obtain rfl := at_.eq here
  change calling.enter m target name args [] = _
  rw [State.enter, found, Option.bind_some, passed, Option.bind_some, begun]
  rfl

theorem State.exit_of_successors {s : State} {exit? : Option Exit} {blocks : List Block}
    (next : s.current.function.successors? s.current.later s.data exit? = some blocks) :
    s.exit exit? = s.goto blocks := by
  cases exit? with
  | none =>
    cases next
    rfl
  | some exit =>
    cases exit with
    | jump label =>
      cases next
      rfl
    | branch v nonZero zero =>
      obtain ⟨x, value, rfl⟩ := Option.map_eq_some_iff.mp next
      rw [State.exit, value]
    | ret v => contradiction

namespace Function

theorem comes_block (here : f.blocksFrom from_ = b :: later)
    (effects : Instr.effects? blob b.instrs d = some d')
    (next : f.successors? later d' b.exit? = some (f.blocksFrom to_))
    (there : f.blocksFrom to_ ≠ []) : Comes m blob f from_ d to_ d' := by
  intro callers s at_
  obtain ⟨first, rest, blocks⟩ := exists_cons_of_ne_nil there
  let ended : State := ⟨d'.storage, ⟨f, d'.temps, { b with instrs := [] }, later⟩, callers⟩
  have goes : ended.step m blob = ended.goto (f.blocksFrom to_) := State.exit_of_successors next
  rw [blocks] at goes
  refine ⟨⟨d'.storage, ⟨f, d'.temps, first, rest⟩, callers⟩, ⟨rfl, rfl, rfl, blocks.symm⟩, ?_⟩
  exact (at_.reaches_end here effects).trans (.one goes)

end Function

end Control

/-- Blocks that are labelled by consecutive positions, from the label of one of them on. -/
theorem dropWhile_label {base : Int} {blocks : List Block} {q k : Nat}
    (labels : ∀ (j : Nat) (b : Block), blocks[j]? = some b →
      b.label = .code (codeAddress base (q + j)))
    (small : q + blocks.length ≤ 0x8000000000000000) (inside : k < blocks.length) :
    blocks.dropWhile (·.label != .code (codeAddress base (q + k))) = blocks.drop k := by
  induction blocks generalizing q k with
  | nil => contradiction
  | cons b rest ih =>
    rw [length_cons] at small inside
    have first : b.label = .code (codeAddress base q) := labels 0 b rfl
    cases k with
    | zero =>
      simp [first]
    | succ k =>
      have apart : codeAddress base q ≠ codeAddress base (q + (k + 1)) := by
        rw [ne_eq, codeAddress_inj (by omega) (by omega)]
        omega
      have shift : q + (k + 1) = q + 1 + k := by omega
      rw [dropWhile_cons_of_pos (by simpa [first] using apart), drop_succ_cons, shift]
      refine ih (fun j c here => ?_) (by omega) (by omega)
      have label := labels (j + 1) c here
      rwa [← Nat.add_assoc, Nat.add_right_comm] at label

end IL

namespace Lowering

open IL

/-- The label of a position. -/
abbrev labelAt (p : Program) (position : Nat) : IL.Label := .code (codeAddress p.codeBase position)

/-- A function has the blocks of the instructions between two positions, in order, behind a first
block and before a return. -/
structure Hosts (p : Program) (f : IL.Function) (q stop : Nat) : Prop where
  inside : stop ≤ p.code.size
  params : f.params = p.maxParams.toNat
  whole : f.blocksFrom .start = f.blocks
  first : ∃ heads, f.blocks = prologue p.maxParams.toNat heads :: f.blocksFrom (labelAt p q)
  block : ∀ k i, q ≤ k → k < stop → p.code[k]? = some i → ∃ c u b u', c.program = p ∧
    instr c u (codeAddress p.codeBase k) i = .ok (b, u') ∧
    f.blocksFrom (labelAt p k) = b :: f.blocksFrom (labelAt p (k + 1))
  last : f.blocksFrom (labelAt p stop) = [lastBlock (codeAddress p.codeBase stop)]

theorem hosts_of_function {p : Program} {f : IL.Function} {used used' q : Nat} {proc : Procedure}
    {instrs : List Instr} (entry : proc.entry = codeAddress p.codeBase q)
    (inside : q + instrs.length ≤ p.code.size) (addressable : p.Addressable)
    (stands : p.HasCode q instrs)
    (cut : slice p proc.entry (codeAddress p.codeBase (q + instrs.length)) = .ok instrs)
    (ok : function p used proc (codeAddress p.codeBase (q + instrs.length)) = .ok (f, used')) :
    Hosts p f q (q + instrs.length) := by
  have bound : q + instrs.length < 0x8000000000000000 := Nat.lt_of_le_of_lt inside addressable
  obtain ⟨-, instrs', body, cut', lowered, rfl⟩ := function_ok ok
  obtain rfl := Except.ok.inj (cut.symm.trans cut')
  obtain ⟨length, pointwise⟩ := blocks_ok lowered
  let behind := body ++ [lastBlock (codeAddress p.codeBase (q + instrs.length))]
  have count : behind.length = instrs.length + 1 := by simp [behind, length]
  have blocks {k : Nat} {i : Instr} (here : instrs[k]? = some i) :
      ∃ c u b u', c.program = p ∧ instr c u (codeAddress p.codeBase (q + k)) i = .ok (b, u') ∧
        behind[k]? = some b := by
    obtain ⟨b, u, u', block, made⟩ := pointwise k i here
    rw [entry, further_codeAddress] at made
    obtain ⟨inside, -⟩ := List.getElem?_eq_some_iff.mp block
    exact ⟨_, u, b, u', rfl, made, (getElem?_append_left inside).trans block⟩
  have labels : ∀ (j : Nat) (b : IL.Block), behind[j]? = some b → b.label = labelAt p (q + j) := by
    intro j b here
    obtain ⟨inside, -⟩ := List.getElem?_eq_some_iff.mp here
    by_cases early : j < instrs.length
    · obtain ⟨_, _, c, _, -, made, same⟩ := blocks (getElem?_eq_getElem early)
      obtain rfl := Option.some.inj (same.symm.trans here)
      exact instr_label made
    · obtain rfl : j = instrs.length := by omega
      simp only [behind, ← length, getElem?_concat_length, Option.some.injEq] at here
      rw [← here, length]
      rfl
  have dropped {k : Nat} (inside : k ≤ instrs.length) :
      IL.Function.blocksFrom ⟨functionName.isGlobal proc, functionName proc, p.maxParams.toNat,
        prologue p.maxParams.toNat (loopHeads proc.entry instrs) :: behind⟩ (labelAt p (q + k)) =
        behind.drop k := by
    exact dropWhile_label labels (by omega) (by omega)
  refine ⟨inside, rfl, rfl, ⟨loopHeads proc.entry instrs, ?_⟩, ?_, ?_⟩
  · have all := dropped (Nat.zero_le _)
    exact congrArg _ all.symm
  · intro k i from_ until_ here
    obtain ⟨j, rfl⟩ := Nat.exists_eq_add_of_le from_
    rw [stands j (by omega)] at here
    obtain ⟨c, u, b, u', program, made, block⟩ := blocks here
    refine ⟨c, u, b, u', program, made, ?_⟩
    obtain ⟨inside, rfl⟩ := List.getElem?_eq_some_iff.mp block
    have next := dropped (show j + 1 ≤ instrs.length by omega)
    calc _ = behind.drop j := dropped (by omega)
      _ = behind[j] :: behind.drop (j + 1) := drop_eq_getElem_cons inside
      _ = _ := congrArg _ next.symm
  · calc _ = behind.drop instrs.length := dropped (Nat.le_refl _)
      _ = _ := by rw [← length, drop_left, length]

theorem Hosts.ne_nil {p : Program} {f : IL.Function} {q stop k : Nat} (hosts : Hosts p f q stop)
    (from_ : q ≤ k) (until_ : k ≤ stop) : f.blocksFrom (labelAt p k) ≠ [] := by
  rcases Nat.lt_or_eq_of_le until_ with before | rfl
  · have inside : k < p.code.size := Nat.lt_of_lt_of_le before hosts.inside
    have here : p.code[k]? = some p.code[k] := Array.getElem?_eq_getElem inside
    obtain ⟨_, _, b, _, -, -, block⟩ := hosts.block k _ from_ before here
    simp [block]
  · simp [hosts.last]

theorem effects?_zeros (blob : BitVec 64) (targets : List Temp) (d : Data) :
    ∃ d', IL.Instr.effects? blob (targets.map fun t => .copy t (.int 0)) d = some d' ∧
      d'.storage = d.storage ∧
      ∀ t, d'.temps t = if t ∈ targets then some (.word 0) else d.temps t := by
  induction targets generalizing d with
  | nil => exact ⟨d, rfl, rfl, by simp⟩
  | cons target rest ih =>
    obtain ⟨d', effects, storage, temps⟩ := ih (d.assign target (.word 0))
    refine ⟨d', effects, storage, fun t => ?_⟩
    rw [temps]
    by_cases later : t ∈ rest
    · simp [later]
    · by_cases same : t = target <;> simp [later, same, Data.assign]

/-- The first block of a function comes to the code behind it, with the parameters that the function
was given. -/
theorem Hosts.comes_prologue {p : Program} {module : IL.Module} {blob : BitVec 64}
    {outer storage : Storage} {f : IL.Function} {q stop : Nat} {c : Core} {known : Register → Prop}
    {words : List (BitVec 32)} (hosts : Hosts p f q stop) (ordered : q ≤ stop)
    (holds : Storage.Holds blob outer c.memory storage)
    (passed : ∀ reg, known reg → ∃ (number : Nat) (n : Int) (x : BitVec 32), reg = .param number ∧
      c.params.get? number = some n ∧ words[number]? = some x ∧ x.setWidth 16 = BitVec.ofInt 16 n) :
    ∃ d, f.Comes module blob .start ⟨IL.Function.arguments words, storage⟩ (labelAt p q) d ∧
      Mirrors blob outer p.maxParams.toNat true known c d := by
  obtain ⟨heads, blocks⟩ := hosts.first
  let targets : List Temp := [.acc, .tmp] ++
    (List.range p.maxParams.toNat).map (fun (i : Nat) => .arg i) ++ heads.map .counter
  have zeros : (prologue p.maxParams.toNat heads).instrs =
      targets.map fun t => .copy t (.int 0) := by
    simp [prologue, targets, Function.comp_def]
  obtain ⟨d, effects, same, temps⟩ :=
    effects?_zeros blob targets ⟨IL.Function.arguments words, storage⟩
  refine ⟨d, ?_, same ▸ holds, ?_, ?_, ?_⟩
  · apply IL.Function.comes_block (hosts.whole.trans blocks)
    · rw [zeros]
      exact effects
    · rfl
    · exact hosts.ne_nil (Nat.le_refl q) ordered
  · simp [Value.word?, temps, targets]
  · intro number below
    have member : Temp.arg number ∈ targets :=
      mem_append_left _ (mem_append_right _ (mem_map.mpr ⟨number, mem_range.mpr below, rfl⟩))
    rw [Value.word?, temps, if_pos member]
    rfl
  · intro reg knows
    obtain ⟨number, n, x, rfl, held, word, low⟩ := passed reg knows
    refine ⟨n, x, held, ?_, low⟩
    simp [tempOf, Value.word?, temps, targets, IL.Function.arguments, word, Datum.low]

/-! ## Instructions that steer control -/

section Steering

variable {p : Program} {blob : BitVec 64} {outer : Storage} {limit : Nat} {given : Bool}
  {known : Register → Prop} {c : Core} {d : Data} {f : IL.Function} {q stop pos target : Nat}
  {n : Int}

theorem bne_zero_ofInt (fits : InWord n) : (BitVec.ofInt 32 n != 0) = (n != 0) := by
  rw [Bool.eq_iff_iff, bne_iff_ne, bne_iff_ne, ne_eq, ofInt_eq_zero_iff fits]

theorem truth_ne_zero (c : Comparison) (x y : BitVec 32) :
    ((if c.holds x y then 1 else 0 : BitVec 32) != 0) = c.holds x y := by
  cases c.holds x y <;> rfl

theorem atLeast_ofInt (fits : InWord n) :
    Comparison.atLeast.holds (BitVec.ofInt 32 n) (BitVec.ofInt 32 0) = decide (0 ≤ n) := by
  rw [Comparison.holds, BitVec.sle, toInt_ofInt_word fits]
  rfl

theorem greater_ofInt (fits : InWord n) :
    Comparison.greater.holds (BitVec.ofInt 32 n) (BitVec.ofInt 32 0) = decide (0 < n) := by
  rw [Comparison.holds, BitVec.slt, toInt_ofInt_word fits]
  rfl

theorem ofInt_pred (n : Int) : BitVec.ofInt 32 n - BitVec.ofInt 32 1 = BitVec.ofInt 32 (n - 1) :=
  (ofInt_sub n 1).symm

/-- The counter of a loop is set, and no other counter has changed. -/
structure Counts (p : Program) (head : Nat) (n : Int) (d d' : Data) : Prop where
  set : d'.temps (.counter (codeAddress p.codeBase head)) = some (.word (BitVec.ofInt 32 n))
  others : ∀ address ≠ codeAddress p.codeBase head,
    d'.temps (.counter address) = d.temps (.counter address)

theorem counts_assign {head : Nat} (number : Nat) (x : Datum) :
    Counts p head n d ((d.assign (.counter (codeAddress p.codeBase head))
      (.word (BitVec.ofInt 32 n))).assign (.fresh number) x) where
  set := by simp [Data.assign]
  others address apart := by simp [Data.assign, apart]

variable (module : IL.Module) (hosts : Hosts p f q stop)
include hosts

/-- Control goes to one of two labels by the value of a word. -/
theorem Hosts.comes_branch {l : IL.Label} {instrs : List IL.Instr} {value : Value}
    {later : List IL.Block} {d' : Data} {x : BitVec 32} {yes no : Nat}
    (block : f.blocksFrom (labelAt p pos) =
      ⟨l, instrs, some (.branch value (labelAt p yes) (labelAt p no))⟩ :: later)
    (effects : IL.Instr.effects? blob instrs d = some d') (held : value.word? d' = some x)
    (positive : q ≤ yes ∧ yes ≤ stop) (otherwise : q ≤ no ∧ no ≤ stop) :
    f.Comes module blob (labelAt p pos) d (labelAt p (if x != 0 then yes else no)) d' := by
  apply IL.Function.comes_block block effects
  · rw [IL.Function.successors?, held, Option.map_some]
    split <;> rfl
  · split
    · exact hosts.ne_nil positive.1 positive.2
    · exact hosts.ne_nil otherwise.1 otherwise.2

/-- A counter is positive, and the loop goes on, or it is not, and the loop is left. -/
theorem Hosts.comes_counted {l : IL.Label} {instr : IL.Instr} {value : Value}
    {later : List IL.Block} {d' : Data} {number onward behind : Nat}
    (block : f.blocksFrom (labelAt p pos) =
      ⟨l, [instr, .compare (.fresh number) .greater value (.int 0)],
        some (.branch (var (.fresh number)) (labelAt p onward) (labelAt p behind))⟩ :: later)
    (effect : instr.effect? blob d = some d') (small : InWord n)
    (held : value.word? d' = some (BitVec.ofInt 32 n)) (ahead : q ≤ onward ∧ onward ≤ stop)
    (until_ : q ≤ behind ∧ behind ≤ stop) :
    ∃ x, f.Comes module blob (labelAt p pos) d (labelAt p (if 0 < n then onward else behind))
      (d'.assign (.fresh number) x) := by
  let x : BitVec 32 :=
    if Comparison.greater.holds (BitVec.ofInt 32 n) (BitVec.ofInt 32 0) then 1 else 0
  have moves : IL.Instr.effects? blob [instr, .compare (.fresh number) .greater value (.int 0)] d =
      some (d'.assign (.fresh number) (.word x)) := by
    rw [IL.Instr.effects?, effect, Option.bind_some, IL.Instr.effects?, IL.Instr.effect?, held]
    rfl
  have word : (var (.fresh number)).word? (d'.assign (.fresh number) (.word x)) = some x := by
    simp [Datum.low]
  have comes := hosts.comes_branch module block moves word ahead until_
  rw [truth_ne_zero, greater_ofInt small] at comes
  exact ⟨.word x, by simpa using comes⟩

variable (from_ : q ≤ pos) (fits : pos < stop)
include from_ fits

/-- A jump goes to its target where its test is met, and onward otherwise. -/
theorem Hosts.comes_jump {test : Test}
    (here : p.code[pos]? = some (.jump test (codeAddress p.codeBase target)))
    (defined : test ≠ .undefined) (ahead : q ≤ target ∧ target ≤ stop)
    (reads : test ≠ .always → known .acc) (mirrors : Mirrors blob outer limit given known c d) :
    ∃ d', f.Comes module blob (labelAt p pos) d
        (labelAt p (if test.taken c.acc then target else pos + 1)) d' ∧
      Mirrors blob outer limit given known c d' ∧ SameCounters d d' := by
  obtain ⟨ctx, u, b, u', -, made, block⟩ := hosts.block pos _ from_ fits here
  obtain ⟨_, labelled, made⟩ := bind_ok_iff.mp made
  obtain ⟨-, rfl⟩ := label_ok_iff.mp labelled
  have same : SameCounters d d := fun _ => rfl
  have next : q ≤ pos + 1 ∧ pos + 1 ≤ stop := by omega
  have idle : IL.Instr.effects? blob [] d = some d := rfl
  cases test with
  | always =>
    cases made
    refine ⟨d, ?_, mirrors, same⟩
    exact IL.Function.comes_block block rfl rfl (hosts.ne_nil ahead.1 ahead.2)
  | zero =>
    cases made
    rw [codeAddress_succ] at block
    obtain ⟨small, held⟩ := mirrors.acc (reads (by simp))
    refine ⟨d, ?_, mirrors, same⟩
    have comes := hosts.comes_branch module block idle held next ahead
    rw [bne_zero_ofInt small] at comes
    by_cases zero : c.acc = 0 <;> simpa [Test.taken, zero] using comes
  | nonZero =>
    cases made
    rw [codeAddress_succ] at block
    obtain ⟨small, held⟩ := mirrors.acc (reads (by simp))
    refine ⟨d, ?_, mirrors, same⟩
    have comes := hosts.comes_branch module block idle held ahead next
    rwa [bne_zero_ofInt small] at comes
  | nonNegative =>
    cases made
    rw [codeAddress_succ] at block
    obtain ⟨small, held⟩ := mirrors.acc (reads (by simp))
    let x : BitVec 32 :=
      if Comparison.atLeast.holds (BitVec.ofInt 32 c.acc) (BitVec.ofInt 32 0) then 1 else 0
    have moves : IL.Instr.effects? blob
        [.compare (.fresh (u + 1)) .atLeast acc (.int 0)] d =
        some (d.assign (.fresh (u + 1)) (.word x)) := by
      rw [IL.Instr.effects?, IL.Instr.effect?, held]
      rfl
    have word : (var (.fresh (u + 1))).word? (d.assign (.fresh (u + 1)) (.word x)) = some x := by
      simp [Datum.low]
    refine ⟨_, ?_, mirrors.assign_fresh (u + 1) (.word x), same.assign (by simp) _⟩
    have comes := hosts.comes_branch module block moves word ahead next
    rwa [truth_ne_zero, atLeast_ofInt small] at comes
  | undefined => exact absurd rfl defined

theorem Hosts.comes_loopHead
    (here : p.code[pos]? = some (.loopHead (codeAddress p.codeBase target)))
    (ahead : q ≤ target ∧ target ≤ stop) (reads : known .acc)
    (mirrors : Mirrors blob outer limit given known c d) :
    ∃ d', f.Comes module blob (labelAt p pos) d
        (labelAt p (if 0 < c.acc then pos + 1 else target)) d' ∧
      Mirrors blob outer limit given known c d' ∧ Counts p pos c.acc d d' := by
  obtain ⟨ctx, u, b, u', -, made, block⟩ := hosts.block pos _ from_ fits here
  obtain ⟨_, labelled, made⟩ := bind_ok_iff.mp made
  obtain ⟨-, rfl⟩ := label_ok_iff.mp labelled
  cases made
  obtain ⟨small, held⟩ := mirrors.acc reads
  rw [codeAddress_succ] at block
  have effect : (IL.Instr.copy (.counter (codeAddress p.codeBase pos)) acc).effect? blob d =
      some (d.assign (.counter (codeAddress p.codeBase pos)) (.word (BitVec.ofInt 32 c.acc))) := by
    rw [IL.Instr.effect?, held, Option.map_some]
  obtain ⟨x, comes⟩ := hosts.comes_counted module block effect small
    (by simpa using held) ⟨by omega, by omega⟩ ahead
  exact ⟨_, comes, (mirrors.assign_counter _ _).assign_fresh _ _, counts_assign _ _⟩

/-- A round begins with the number of rounds after it in the accumulator. -/
theorem Hosts.comes_loopIndex {head : Nat} (here : p.code[pos]? = some .loopIndex)
    (behind : pos = head + 1) (small : InWord (n - 1))
    (counter : d.temps (.counter (codeAddress p.codeBase head)) =
      some (.word (BitVec.ofInt 32 n)))
    (mirrors : Mirrors blob outer limit given known c d) :
    ∃ d', f.Comes module blob (labelAt p pos) d (labelAt p (pos + 1)) d' ∧
      Mirrors blob outer limit given (fun reg => reg = .acc ∨ known reg)
        { c with acc := n - 1 } d' ∧ SameCounters d d' := by
  obtain ⟨ctx, u, b, u', -, made, block⟩ := hosts.block pos _ from_ fits here
  cases made
  subst behind
  have same : SameCounters d d := fun _ => rfl
  refine ⟨_, ?_, mirrors.assign_acc small, same.assign (by simp) _⟩
  apply IL.Function.comes_block block
  · simp only [IL.Instr.effects?, IL.Instr.effect?, codeAddress_pred, Value.word?, counter,
      Option.map_some, Option.bind_some, Datum.low, operate?, ofInt_pred]
  · rfl
  · exact hosts.ne_nil (by omega) (by omega)

/-- The end of a round counts down and goes to the next one, unless it was the last. -/
theorem Hosts.comes_loopNext {head : Nat}
    (here : p.code[pos]? = some (.loopNext (codeAddress p.codeBase (head + 1))))
    (first : q ≤ head) (after : head < pos) (small : InWord (n - 1))
    (counter : d.temps (.counter (codeAddress p.codeBase head)) =
      some (.word (BitVec.ofInt 32 n)))
    (mirrors : Mirrors blob outer limit given known c d) :
    ∃ d', f.Comes module blob (labelAt p pos) d
        (labelAt p (if 0 < n - 1 then head + 1 else pos + 1)) d' ∧
      Mirrors blob outer limit given known c d' ∧ Counts p head (n - 1) d d' := by
  obtain ⟨ctx, u, b, u', -, made, block⟩ := hosts.block pos _ from_ fits here
  obtain ⟨_, labelled, made⟩ := bind_ok_iff.mp made
  obtain ⟨-, rfl⟩ := label_ok_iff.mp labelled
  cases made
  rw [codeAddress_succ, codeAddress_pred] at block
  have effect : (IL.Instr.arith (.counter (codeAddress p.codeBase head)) .sub
      (var (.counter (codeAddress p.codeBase head))) (.int 1)).effect? blob d =
      some (d.assign (.counter (codeAddress p.codeBase head))
        (.word (BitVec.ofInt 32 (n - 1)))) := by
    simp only [IL.Instr.effect?, Value.word?, counter, Option.map_some, Option.bind_some, Datum.low,
      operate?, ofInt_pred]
  obtain ⟨x, comes⟩ := hosts.comes_counted module block effect small
    (by simp [Datum.low]) ⟨by omega, by omega⟩ ⟨by omega, by omega⟩
  exact ⟨_, comes, (mirrors.assign_counter _ _).assign_fresh _ _, counts_assign _ _⟩

end Steering

end Lowering

end HighAsm
