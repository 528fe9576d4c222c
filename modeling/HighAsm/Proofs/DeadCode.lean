import HighAsm.Proofs.RegisterRange
import HighAsm.Proofs.StepLimits
import HighAsm.Proofs.Unreachable

/-!
# Code that is never run

What follows a return outside all structures is a text of its own, and so is what comes before it.
No jump of one text leads into another, a return does not go on behind itself, and every other
procedure keeps to its own code. Control that enters by procedures therefore never comes to the
statements behind such a return. An exit that a failed module has left without a target leads to the
address 0, so that this address must not be the one of such a statement.
-/

namespace HighAsm

open List Assembly Statement

/-! ## Texts -/

theorem Simple.depthAfter_statement (s : Simple) (depth : Nat) :
    s.statement.depthAfter depth = depth := by
  cases s <;> rfl

theorem Opening.depthAfter_statement (o : Opening) (depth : Nat) :
    o.statement.depthAfter depth = depth + 1 := by
  cases o <;> rfl

theorem Statement.reachable_cons_inside (s : Statement) (depth : Nat) (rest : List Statement) :
    reachable (depth + 1) (s :: rest) = reachable (s.depthAfter (depth + 1)) rest + 1 := by
  rw [reachable, if_neg (by omega)]

namespace Nest

/-- Inside a structure no return counts. -/
theorem reachable_inside (n : Nest) (depth : Nat) (rest : List Statement) :
    reachable (depth + 1) (n.statements ++ rest) =
      n.statements.length + reachable (depth + 1) rest := by
  induction n generalizing depth rest with
  | nil => simp [statements]
  | step s tail ih =>
    rw [statements, cons_append, reachable_cons_inside, s.depthAfter_statement, ih,
      length_cons]
    omega
  | block o body tail ihBody ihTail =>
    have closed : (close o.block).depthAfter (depth + 1 + 1) = depth + 1 := rfl
    rw [statements, append_assoc, cons_append, cons_append,
      reachable_cons_inside, o.depthAfter_statement, ihBody,
      reachable_cons_inside, closed, ihTail]
    simp only [length_append, length_cons]
    omega

/-- A text is divided behind the first return that is not inside a structure. -/
theorem divided (n : Nest) :
    ∃ live dead : Nest, n = live.append dead ∧
      live.statements.length = reachable 0 n.statements ∧
      (dead = .nil ∨ ∃ front : Nest, live = front.append (.step .ret .nil)) := by
  induction n with
  | nil => exact ⟨.nil, .nil, rfl, rfl, .inl rfl⟩
  | step s tail ih =>
    by_cases ret : s = .ret
    · subst ret
      exact ⟨.step .ret .nil, tail, rfl, rfl, .inr ⟨.nil, rfl⟩⟩
    · obtain ⟨live, dead, rfl, length, ends⟩ := ih
      refine ⟨.step s live, dead, rfl, ?_, ends.imp_right ?_⟩
      · have goesOn : s.statement ≠ .ret := by cases s <;> simp_all [Simple.statement]
        rw [statements, length_cons, length]
        simp [statements, reachable, goesOn, s.depthAfter_statement]
      · rintro ⟨front, rfl⟩
        exact ⟨.step s front, rfl⟩
  | block o body tail _ ih =>
    obtain ⟨live, dead, rfl, length, ends⟩ := ih
    refine ⟨.block o body live, dead, rfl, ?_, ends.imp_right ?_⟩
    · have goesOn : o.statement ≠ .ret := by cases o <;> simp [Opening.statement]
      have closed : (close o.block).depthAfter (0 + 1) = 0 := rfl
      rw [statements, statements, cons_append, cons_append, reachable,
        if_neg (fun both => goesOn both.1), o.depthAfter_statement, reachable_inside,
        reachable_cons_inside, closed, ← length]
      simp only [length_append, length_cons]
    · rintro ⟨front, rfl⟩
      exact ⟨.block o body front, rfl⟩

end Nest

/-! ## Addresses -/

namespace Program

/-- An address is not that of an instruction between two positions. -/
def Avoids (p : Program) (first last : Nat) (address : Int) : Prop :=
  ∀ k, p.index? address = some k → k < first ∨ last ≤ k

section Avoiding

variable {p p' : Program} {first last start stop k : Nat} {loose : Prop} {address : Int} {i : Instr}

theorem avoids_of_le (address : Int) (none_ : last ≤ first) : p.Avoids first last address := by
  intro k _
  omega

theorem LeadsInside.avoids (inside : p.LeadsInside start stop address)
    (addressable : p.Addressable) (most : stop ≤ p.code.size)
    (apart : stop < first ∨ last ≤ start) : p.Avoids first last address := by
  obtain ⟨position, least, within, rfl⟩ := inside
  intro k found
  have offset := (index?_eq_some_iff.mp found).1
  unfold Addressable at addressable
  rw [codeAddress_sub_base _ (by omega)] at offset
  omega

/-- The address behind an instruction is that of the next one. -/
theorem index?_succ {k' : Nat} (addressable : p.Addressable) (here : p.index? address = some k)
    (next : p.index? (wrap64 (address + 1)) = some k') : k' = k + 1 := by
  obtain ⟨offset, inside⟩ := index?_eq_some_iff.mp here
  have offset' := (index?_eq_some_iff.mp next).1
  have shift : address + 1 - p.codeBase = address - p.codeBase + 1 := by omega
  unfold Addressable at addressable
  rw [wrap64_wrap64_sub, shift, ← wrap64_wrap64_add, offset] at offset'
  have small : wrap64 ((k + 1 : Nat) : Int) = (k + 1 : Nat) := wrap64_natCast (by omega)
  rw [Int.natCast_add, Int.natCast_one] at small
  omega

variable (more : p.Extends loose p')
include more

/-- What stands behind the code of a program leads nowhere else. -/
theorem Extends.leads (behind : p.code.size ≤ k) (here : p'.code[k]? = some i) :
    i.Leads loose p' p.code.size p'.code.size := by
  obtain ⟨added, whole, leads⟩ := more.code
  apply leads
  rw [← Array.getElem?_toList, whole, getElem?_append_right (by simpa using behind)] at here
  exact mem_of_getElem? here

theorem Extends.kept (inside : k < p.code.size) : p'.code[k]? = p.code[k]? := by
  obtain ⟨added, whole, -⟩ := more.code
  rw [← Array.getElem?_toList, ← Array.getElem?_toList, whole,
    getElem?_append_left (by simpa using inside)]

theorem Extends.entry_cases (begins : p'.IsEntry address) :
    p.IsEntry address ∨ p'.LeadsInside p.code.size p'.code.size address := by
  obtain ⟨added, whole, inside⟩ := more.procedures
  obtain ⟨proc, member, rfl⟩ := begins
  rw [whole] at member
  rcases mem_append.mp member with early | late
  · exact .inl ⟨proc, early, rfl⟩
  · exact .inr (inside proc late)

end Avoiding

/-- A return keeps control away from what follows it up to some position: everything up to the
return stays there, and so does everything from that position on. -/
structure Shields (loose : Prop) (p : Program) (ret stop : Nat) : Prop where
  returns : p.code[ret]? = some .ret
  before : ∀ k i, p.code[k]? = some i → k ≤ ret → i.Leads loose p 0 ret
  behind : ∀ k i, p.code[k]? = some i → stop ≤ k → i.Leads loose p stop p.code.size
  entries : ∀ entry, p.IsEntry entry →
    p.LeadsInside 0 ret entry ∨ p.LeadsInside stop p.code.size entry

namespace Shields

variable {loose : Prop} {p : Program} {ret stop : Nat}

theorem avoids (shields : Shields loose p ret stop) (addressable : p.Addressable) {address : Int}
    (leads : p.LeadsInside 0 ret address ∨ p.LeadsInside stop p.code.size address) :
    p.Avoids (ret + 1) stop address := by
  obtain ⟨inside, -⟩ := Array.getElem?_eq_some_iff.mp shields.returns
  rcases leads with early | late
  · exact early.avoids addressable (Nat.le_of_lt inside) (.inl (Nat.lt_succ_self ret))
  · exact late.avoids addressable (Nat.le_refl _) (.inr (Nat.le_refl _))

/-- Control that is not between a return and that position does not come there. -/
theorem confines (shields : Shields loose p ret stop) (addressable : p.Addressable)
    (zero : loose → p.Avoids (ret + 1) stop 0) : p.Confines (p.Avoids (ret + 1) stop) := by
  have leads {pc : Int} {i : Instr} (good : p.Avoids (ret + 1) stop pc)
      (here : p.instr? pc = some i) :
      i.Leads loose p 0 ret ∨ i.Leads loose p stop p.code.size := by
    obtain ⟨k, found, there⟩ := Option.bind_eq_some_iff.mp here
    rcases good k found with early | late
    · exact .inl (shields.before k i there (by omega))
    · exact .inr (shields.behind k i there late)
  constructor
  · intro pc i good here goesOn k' next
    obtain ⟨k, found, there⟩ := Option.bind_eq_some_iff.mp here
    have follows := index?_succ addressable found next
    have other : k ≠ ret := by
      rintro rfl
      exact goesOn (Option.some.inj (there.symm.trans shields.returns))
    have apart := good k found
    omega
  · intro pc i target good here goes
    rcases leads good here with early | late
    · rcases early.jumps target goes with ⟨open_, rfl⟩ | inside
      · exact zero open_
      · exact shields.avoids addressable (.inl inside)
    · rcases late.jumps target goes with ⟨open_, rfl⟩ | inside
      · exact zero open_
      · exact shields.avoids addressable (.inr inside)
  · intro pc entry good here
    have begins : p.IsEntry entry :=
      (leads good here).elim (fun early => early.calls entry rfl) fun late => late.calls entry rfl
    exact shields.avoids addressable (shields.entries entry begins)

end Shields

end Program

theorem Program.Extends.hasCode {loose : Prop} {p p' : Program} {before code : List Instr}
    (more : p.Extends loose p') (whole : p.code.toList = before ++ code) :
    p'.HasCode before.length code := by
  obtain ⟨added, whole', -⟩ := more.code
  rw [whole] at whole'
  exact .of_toList whole'

/-- A return outside all structures shields the rest of its text. -/
theorem Nest.shields {loose : Prop} {o p₀ p₁ p : Program} {front dead : Nest} {limit : Int}
    (nothing : o.code.size = 0) (nowhere : o.procedures = []) (first : o.Extends loose p₀)
    (sound : ∀ s ∈ front.statements, s.Sound limit p₀.Offers)
    (middle : p₀.Extends loose p₁) (procedures : p₁.procedures = p₀.procedures)
    (whole : p₁.code.toList = p₀.code.toList ++
      (front.append (.step .ret dead)).code p₀.codeBase p₀.code.size)
    (last : p₁.Extends loose p) :
    p.Shields loose (p₀.code.size + front.size) p₁.code.size := by
  have base : p.codeBase = p₀.codeBase := last.base.trans middle.base
  have stands := last.hasCode whole
  rw [Array.length_toList, code_append] at stands
  have returns := stands.right.left.head
  rw [length_code] at returns
  have size : p₀.code.size + front.size < p₁.code.size := by
    rw [size_of_toList whole, code_append]
    simp only [code, Simple.code, length_append, Array.length_toList, length_code,
      length_singleton]
    omega
  refine ⟨returns, fun k i here most => ?_, fun k i here least => last.leads least here,
    fun entry begins => ?_⟩
  · rcases Nat.lt_or_ge k p₀.code.size with early | late
    · rw [last.kept (by omega), middle.kept early] at here
      have leads := first.leads (by omega) here
      rw [nothing] at leads
      exact leads.mono id base (Nat.le_refl _) (by omega) fun _ entry =>
        last.isEntry (middle.isEntry entry)
    · rcases Nat.lt_or_eq_of_le most with inside | rfl
      · have member := stands.left.mem late (by rw [length_code]; exact inside) here
        have leads : i.Leads loose p₀ 0 (p₀.code.size + front.size) :=
          code_leads (Nat.zero_le _) (Nat.le_refl _) sound i member
        exact leads.mono id base (Nat.le_refl _) (Nat.le_refl _) fun _ entry =>
          last.isEntry (middle.isEntry entry)
      · obtain rfl := Option.some.inj (returns.symm.trans here)
        exact Instr.Straight.leads ⟨rfl, rfl⟩
  · rcases last.entry_cases begins with earlier | later
    · rw [Program.IsEntry, procedures] at earlier
      rcases first.entry_cases earlier with impossible | inside
      · rw [Program.IsEntry, nowhere] at impossible
        simp at impossible
      · rw [nothing] at inside
        exact .inl (inside.mono base (Nat.le_refl _) (by omega))
    · exact .inr later

/-! ## Runs -/

namespace Machine

/-- The moments of a run, up to a number of rounds. -/
def moments (p : Program) : Nat → Machine → Int → List Moment
  | 0, _, _ => []
  | rounds + 1, m, pc =>
    ⟨m, pc⟩ ::
      match m.round p pc with
      | .next pc' m' => moments p rounds m' pc'
      | .done _ | .stopped _ _ => []

/-- Control stays where it is confined to in the whole run. -/
theorem moments_confined {p : Program} {good : Int → Prop} (confines : p.Confines good)
    (rounds : Nat) {m : Machine} {pc : Int} (confined : m.Confined good pc) :
    ∀ moment ∈ moments p rounds m pc, good moment.pc := by
  induction rounds generalizing m pc with
  | zero => exact forall_mem_nil _
  | succ rounds ih =>
    refine forall_mem_cons.mpr ⟨confined.here, ?_⟩
    cases round : m.round p pc with
    | next pc' m' => exact ih (round_confined confines confined round)
    | done _ | stopped _ _ => exact forall_mem_nil _

end Machine

/-- No run that begins at a procedure, however long, comes to an instruction between two
positions. -/
def Program.NeverRuns (p : Program) (first last : Nat) : Prop :=
  ∀ (m : Machine) (entry : Int) (args : List Int) (rounds : Nat), p.IsEntry entry →
    ∀ moment ∈ Machine.moments p rounds (m.entered p entry args) entry,
      p.Avoids first last moment.pc

theorem Program.neverRuns_of_le {p : Program} {first last : Nat} (none_ : last ≤ first) :
    p.NeverRuns first last :=
  fun _ _ _ _ _ _ _ => avoids_of_le _ none_

theorem Program.Shields.neverRuns {loose : Prop} {p : Program} {ret stop : Nat}
    (shields : p.Shields loose ret stop) (addressable : p.Addressable)
    (zero : loose → p.Avoids (ret + 1) stop 0) : p.NeverRuns (ret + 1) stop := by
  intro m entry args rounds begins
  refine Machine.moments_confined (shields.confines addressable zero) rounds ?_
  exact ⟨shields.avoids addressable (shields.entries entry begins), cons_ne_nil _ _,
    forall_mem_nil _⟩

/-! ## Procedures -/

theorem start_grounded (settings : Settings) : (start settings).Grounded :=
  (start_madeOf settings).linked

/-- The position where the statements of a procedure begin. -/
def Account.position (account : Account) : Nat := account.before.builder.program.code.size

/-- The position behind the statements of a procedure. -/
def Account.stop (account : Account) : Nat := account.after.builder.program.code.size

/-- A procedure is assembled on the way from one state to another. -/
structure Account.Between (settings : Settings) (a a' : Assembly) (account : Account) : Prop where
  before : Adds False a account.before
  reads : Located.sequence ⟨settings, account.before.table⟩ 0 account.passage.body =
    .ok account.read
  body : statements settings 0 [] {} account.passage.source.body account.before =
    .ok () account.after
  after : Adds False account.after a'

theorem Accounts.between {settings : Settings} {passages : List Passage} {a a' : Assembly}
    {accounts : List Account} (written : Accounts settings passages a accounts a') :
    Adds False a a' ∧ ∀ account ∈ accounts, account.Between settings a a' := by
  induction written with
  | nil a => exact ⟨.refl a, forall_mem_nil _⟩
  | @cons passage rest a b c d a' read accounts header locals reads body others ih =>
    have lined : Adds False a { a with line := passage.opening.line } := .narrow rfl fun _ => id
    have headed := lined.trans ((header_additive _).keeps header)
    have begun := headed.trans ((declareLocals_always _ _ _).additive.keeps locals)
    have bodied := begun.trans ((statements_additive _).keeps body)
    refine ⟨bodied.trans ih.1, forall_mem_cons.mpr ⟨⟨begun, reads, body, ih.1⟩, ?_⟩⟩
    exact fun account member =>
      { ih.2 account member with before := bodied.trans (ih.2 account member).before }

theorem ModuleAccounts.between {settings : Settings} {lines : List Text} {a a' : Assembly}
    {accounts : List Account} (assembled : ModuleAccounts settings lines a accounts a') :
    ∀ account ∈ accounts, account.Between settings a a' := by
  cases assembled with
  | @intro tokens b c read prepared written =>
    intro account member
    have between := written.between.2 account member
    have closed : Adds False c { c with table := c.table.closeModule } :=
      .narrow rfl fun s member => (mem_filter.mp member).1
    exact
      { between with
        before := ((prepare_additive lines).keeps prepared).trans between.before
        after := between.after.trans closed }

section

variable {a : Assembly} {a' : Assembly} {settings : Settings} {account : Account}
  (between : account.Between settings a a')
include between

/-- The code of a procedure is that of its statements. -/
theorem Account.Between.text (addressable : account.after.builder.program.Addressable) :
    ∃ n : Nest, n.statements = account.read.map (·.2) ∧
      (∀ s ∈ n.statements, s.Sound settings.maxParams account.before.table.Knows) ∧
      account.after.builder.program.code.toList = account.before.builder.program.code.toList ++
        n.code account.before.builder.program.codeBase
          account.before.builder.program.code.size := by
  obtain ⟨read, n, sequence, whole, code⟩ := statements_nest between.body addressable
  have same : .ok (account.read.map (·.2)) = Except.ok (ε := Fault) read := by
    rw [← sequence, Passage.source, ← Located.sequence_map, between.reads]
    rfl
  cases same
  refine ⟨n, whole, fun s member => ?_, ?_⟩
  · exact (sequence_spelled sequence).sound s (whole ▸ member)
  · rw [code, (statements_follows between.body).program]
    rfl

/-- The code of a procedure stands in a program, divided where what is not reached begins. -/
structure Account.Divided (account : Account) (p : Program) (live dead : Nest) : Prop where
  statements : (live.append dead).statements = account.read.map (·.2)
  behind : dead.statements = (unreached account.read).map (·.2)
  size : account.stop = account.position + live.size + dead.size
  stands : p.HasCode account.position ((live.append dead).code p.codeBase account.position)

/-- The code of what follows a return outside all structures is never run, unless an exit without a
target leads there. -/
theorem Account.Between.neverRuns {loose : Prop} {z : Assembly}
    (earlier : Adds loose (start settings) a) (later : Adds loose a' z)
    (addressable : z.builder.program.Addressable) :
    ∃ live dead, account.Divided z.builder.program live dead ∧
      ((loose → z.builder.program.Avoids (account.position + live.size) account.stop 0) →
        z.builder.program.NeverRuns (account.position + live.size) account.stop) := by
  have toBegin : Adds loose (start settings) account.before :=
    earlier.trans (between.before.mono False.elim)
  have body : Adds loose account.before account.after :=
    ((statements_additive _).keeps between.body).mono False.elim
  have toEnd : Adds loose account.after z := (between.after.mono False.elim).trans later
  have small : account.after.builder.program.Addressable :=
    Nat.lt_of_le_of_lt toEnd.longer addressable
  have smaller : account.before.builder.program.Addressable :=
    Nat.lt_of_le_of_lt body.longer small
  have grounded := toBegin.grounded smaller (start_grounded settings)
  have first := toBegin.program smaller (start_grounded settings)
  have middle := body.program small grounded
  have last := toEnd.program addressable (body.grounded small grounded)
  obtain ⟨n, statements, sound, whole⟩ := between.text small
  obtain ⟨live, dead, rfl, length, ends⟩ := n.divided
  have size : account.stop = account.position + live.size + dead.size := by
    rw [stop, size_of_toList whole, Nest.code_append]
    simp [position, Nat.add_assoc]
  refine ⟨live, dead, ⟨statements, ?_, size, ?_⟩, fun zero => ?_⟩
  · rw [unreached, map_drop, ← statements, ← length, Nest.statements_append, drop_left]
  · have stands := last.hasCode whole
    rw [Array.length_toList, ← middle.base, ← last.base] at stands
    exact stands
  · rcases ends with rfl | ⟨front, rfl⟩
    · exact Program.neverRuns_of_le (Nat.le_of_eq size)
    have joined : (front.append (.step .ret .nil)).append dead = front.append (.step .ret dead) :=
      Nest.statements_inj (by simp [Nest.statements])
    have behind : (front.append (.step .ret .nil)).size = front.size + 1 := by
      rw [← Nest.length_code 0 0, Nest.code_append]
      simp [Nest.code, Simple.code]
    rw [joined] at whole sound
    rw [behind] at zero ⊢
    have known (s : Statement) (member : s ∈ front.statements) :
        s.Sound settings.maxParams account.before.builder.program.Offers :=
      (sound s (by simp [member])).mono grounded
    have shields := Nest.shields rfl rfl first known middle
      (by rw [(statements_follows between.body).program]; rfl) whole last
    exact shields.neverRuns addressable zero

end

/-! ## Modules -/

/-- A module is assembled among others, some of which may fail, and remarks on statements that are
not reached are asked for. In every procedure that has statements behind a return outside all
structures, the first of them is warned of on its line, and there are no other warnings of this
kind. The code of these statements is never run, if no module fails or the address 0 is not in it:
an exit that a failed module leaves without a target leads there. -/
theorem attempted_unreached {settings : Settings} {earlier later : List (List Text)}
    {lines : List Text} {a a' z : Assembly}
    (before : (attemptModules settings earlier (start settings)).2 = a)
    (ok : assembleModule settings lines a = .ok () a')
    (after : (attemptModules settings later a').2 = z) (asked : settings.warns .unreachableCode)
    (addressable : z.builder.program.Addressable) :
    ∃ accounts, ModuleAccounts settings lines a accounts a' ∧
      (∀ file?, (({ file? := file? } : WarningLog).addAll settings
        (a'.cautions.drop a.cautions.length)).linesOf .unreachableCode =
          Account.warnings accounts) ∧
      ∀ account ∈ accounts, ∃ live dead, account.Divided z.builder.program live dead ∧
        ((∀ failure, .error failure ∉ (attemptModules settings earlier (start settings)).1 ∧
            .error failure ∉ (attemptModules settings later a').1) ∨
          z.builder.program.Avoids (account.position + live.size) account.stop 0 →
        z.builder.program.NeverRuns (account.position + live.size) account.stop) := by
  obtain ⟨accounts, assembled, warned⟩ := assembleModule_accounts ok
  refine ⟨accounts, assembled, fun file? => warned.linesOf asked file?, fun account member => ?_⟩
  let loose : Prop :=
    (∃ failure, .error failure ∈ (attemptModules settings earlier (start settings)).1) ∨
      ∃ failure, .error failure ∈ (attemptModules settings later a').1
  have first : Adds loose (start settings) a := by
    rw [← before]
    exact (attemptModules_adds earlier (start settings)).mono .inl
  have last : Adds loose a' z := by
    rw [← after]
    exact (attemptModules_adds later a').mono .inr
  obtain ⟨live, dead, divided, never⟩ :=
    (assembled.between account member).neverRuns first last addressable
  refine ⟨live, dead, divided, fun kept => never ?_⟩
  rintro (⟨failure, failed⟩ | ⟨failure, failed⟩)
  · exact kept.resolve_left fun sound => (sound failure).1 failed
  · exact kept.resolve_left fun sound => (sound failure).2 failed

/-- Modules are assembled, and remarks on statements that are not reached are asked for. In every
procedure that has statements behind a return outside all structures, the first of them is warned of
on its line, and there are no other warnings of this kind. The code of these statements is never
run. -/
theorem unreached_statements_never_run {settings : Settings} {earlier later : List (List Text)}
    {lines : List Text} {a a' z : Assembly}
    (before : assembleModules settings earlier (start settings) = .ok () a)
    (ok : assembleModule settings lines a = .ok () a')
    (after : assembleModules settings later a' = .ok () z)
    (asked : settings.warns .unreachableCode) (addressable : z.builder.program.Addressable) :
    ∃ accounts, ModuleAccounts settings lines a accounts a' ∧
      (∀ file?, (({ file? := file? } : WarningLog).addAll settings
        (a'.cautions.drop a.cautions.length)).linesOf .unreachableCode =
          Account.warnings accounts) ∧
      ∀ account ∈ accounts, ∃ live dead, account.Divided z.builder.program live dead ∧
        z.builder.program.NeverRuns (account.position + live.size) account.stop := by
  obtain ⟨first, soundBefore⟩ := attemptModules_of_ok before
  obtain ⟨last, soundAfter⟩ := attemptModules_of_ok after
  obtain ⟨accounts, assembled, warned, never⟩ :=
    attempted_unreached first ok last asked addressable
  refine ⟨accounts, assembled, warned, fun account member => ?_⟩
  obtain ⟨live, dead, divided, shielded⟩ := never account member
  exact ⟨live, dead, divided,
    shielded (.inl fun failure => ⟨soundBefore failure, soundAfter failure⟩)⟩

/-- A procedure that returns from inside a loop and at its end, with code behind that, and another
one that calls it. -/
def countdownLines : List Text :=
  ["proc b(n)", "while(n#0) n-1>n if(n-2=0) endproc endif endwhile", "endproc : n > $last",
    "for(n) b(n) endfor", "proc $c()", "b(2)"]

/-- What a module with a single procedure leaves. -/
def firstAssembly : Assembly := (attemptModules {} [["proc a()", "1"]] (start {})).2

/-- What is left when the other module is assembled after it. -/
def countdownAssembly : Assembly := (attemptModules {} [countdownLines] firstAssembly).2

/-- What is left when another caller is assembled at last. -/
def lastAssembly : Assembly :=
  (attemptModules {} [["proc d()", "$c()", "endproc"]] countdownAssembly).2

theorem assembleModule_of_attempt {settings : Settings} {lines : List Text} {a : Assembly}
    (done : (attemptModules settings [lines] a).1.map (·.toOption.isSome) = [true]) :
    assembleModule settings lines a = .ok () (attemptModules settings [lines] a).2 := by
  rw [attemptModules] at done ⊢
  cases result : assembleModule settings lines a with
  | ok _ a' => rfl
  | error failure a' =>
    rw [result] at done
    simp [attemptModules, Except.toOption] at done

theorem unreached_statements_never_run_countdown :
    assembleModule {} countdownLines firstAssembly = .ok () countdownAssembly ∧
      ∃ accounts, ModuleAccounts {} countdownLines firstAssembly accounts countdownAssembly ∧
        Account.warnings accounts = [3] ∧
        ∀ account ∈ accounts, ∃ live dead : Nest,
          dead.statements = (unreached account.read).map (·.2) ∧
          account.stop = account.position + live.size + dead.size ∧
          lastAssembly.builder.program.NeverRuns (account.position + live.size) account.stop := by
  have facts :
      (attemptModules {} [["proc a()", "1"]] (start {})).1.map (·.toOption.isSome) = [true] ∧
      (attemptModules {} [countdownLines] firstAssembly).1.map (·.toOption.isSome) = [true] ∧
      (attemptModules {} [["proc d()", "$c()", "endproc"]] countdownAssembly).1.map
        (·.toOption.isSome) = [true] ∧
      lastAssembly.builder.program.Addressable ∧
      (({} : WarningLog).addAll {} (countdownAssembly.cautions.drop
        firstAssembly.cautions.length)).linesOf .unreachableCode = [3] := by
    decide +kernel
  obtain ⟨first, done, last, addressable, lines⟩ := facts
  have ok := assembleModule_of_attempt done
  have before : assembleModules {} [["proc a()", "1"]] (start {}) = .ok () firstAssembly :=
    step_bind_eq_of_ok (assembleModule_of_attempt first)
  have after : assembleModules {} [["proc d()", "$c()", "endproc"]] countdownAssembly =
      .ok () lastAssembly :=
    step_bind_eq_of_ok (assembleModule_of_attempt last)
  obtain ⟨accounts, assembled, warned, never⟩ :=
    unreached_statements_never_run before ok after (by decide) addressable
  refine ⟨ok, accounts, assembled, (warned none).symm.trans lines, fun account member => ?_⟩
  obtain ⟨live, dead, divided, never⟩ := never account member
  exact ⟨live, dead, divided.behind, divided.size, never⟩

end HighAsm
