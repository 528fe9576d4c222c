import HighAsm.Assembly
import HighAsm.Proofs.Success

/-!
# Declarations

Before the statements of a body are assembled, storage is given to variables and string constants,
and names are entered. Such a step touches neither code nor procedures, and the table only gets
more variables (`Declares`), so every name keeps its meaning.
-/

namespace HighAsm

open Assembly

section Steps

variable {a a' : Assembly} {α : Type}

theorem fail_ne_ok {fault : Fault} {r : α} {a' : Assembly} : fail fault a ≠ .ok r a' := by
  intro ok
  obtain ⟨u, v, -, thrown⟩ := step_bind_ok_iff.mp ok
  exact step_throw_ne_ok thrown

theorem check_ok_iff {x : Except Fault α} {r : α} {a' : Assembly} :
    check x a = .ok r a' ↔ x = .ok r ∧ a = a' := by
  cases x with
  | error fault =>
    simp only [reduceCtorEq, false_and, iff_false]
    exact fail_ne_ok
  | ok b =>
    rw [Except.ok.injEq]
    exact step_pure_ok_iff

end Steps

namespace SymbolTable

variable {t t' : SymbolTable} {s : Symbol} {name : Text}

theorem add_ok (ok : t.add s = .ok t') :
    t.entry? s.key = none ∧ t' = { t with entries := t.entries ++ [s] } := by
  unfold add at ok
  split at ok
  · contradiction
  · next free => exact ⟨free, (Except.ok.inj ok).symm⟩

theorem add_error {fault : Fault} (failed : t.add s = .error fault) :
    (t.entry? s.key).isSome ∧ fault = .duplicate s.key := by
  unfold add at failed
  split at failed
  · next taken => exact ⟨by rw [taken]; rfl, (Except.error.inj failed).symm⟩
  · contradiction

/-- A variable keeps its meaning when symbols are entered behind it. -/
theorem variableOf?_append {more : List Symbol} (known : t.variableOf? name = some s)
    (entries : t'.entries = t.entries ++ more) : t'.variableOf? name = some s := by
  obtain ⟨found, noProcedure⟩ := Option.filter_eq_some_iff.mp known
  refine Option.filter_eq_some_iff.mpr ⟨?_, noProcedure⟩
  rw [ entry?] at found ⊢
  rw [entries, List.find?_append, found, Option.some_or]

/-- A name that is entered for a variable means that variable. -/
theorem variableOf?_add {place : Int} (ok : t.add (.ofVariable name place) = .ok t') :
    t'.variableOf? name = some (.ofVariable name place) := by
  obtain ⟨free, rfl⟩ := add_ok ok
  refine Option.filter_eq_some_iff.mpr ⟨?_, rfl⟩
  rw [ entry?] at free ⊢
  have key : (Symbol.ofVariable name place).key = normalName name := rfl
  rw [key] at free
  simp [List.find?_append, free, key]

end SymbolTable

/-- Nothing of an assembly has changed but the data of the program, the current line and the
remarks, and more variables are known. -/
structure Declares (a a' : Assembly) : Prop where
  program : ∃ data strings,
    a'.builder.program = { a.builder.program with data := data, strings := strings }
  table : ∃ more, a'.table.entries = a.table.entries ++ more ∧ ∀ s ∈ more, s.isProcedure = false

namespace Declares

variable {a a' a'' : Assembly}

theorem same (builder : a'.builder = a.builder) (table : a'.table = a.table) : Declares a a' where
  program := ⟨_, _, by rw [builder]⟩
  table := ⟨[], by simp [table]⟩

theorem refl (a : Assembly) : Declares a a := same rfl rfl

theorem trans (first : Declares a a') (second : Declares a' a'') : Declares a a'' where
  program := by
    obtain ⟨data, strings, program⟩ := first.program
    obtain ⟨data', strings', program'⟩ := second.program
    exact ⟨data', strings', by rw [program', program]⟩
  table := by
    obtain ⟨more, entries, plain⟩ := first.table
    obtain ⟨more', entries', plain'⟩ := second.table
    refine ⟨more ++ more', by rw [entries', entries, List.append_assoc], ?_⟩
    intro s member
    rcases List.mem_append.mp member with early | late
    · exact plain s early
    · exact plain' s late

theorem procedure_mem (declares : Declares a a') {s : Symbol} (member : s ∈ a'.table.entries)
    (procedure : s.isProcedure) : s ∈ a.table.entries := by
  obtain ⟨more, entries, plain⟩ := declares.table
  rw [entries] at member
  rcases List.mem_append.mp member with early | late
  · exact early
  · exact absurd procedure (by simp [plain s late])

end Declares

/-- There can be storage for one word. -/
def WordFits (wordSize : Int) : Prop :=
  0 ≤ wrap64 (1 * wordSize) ∧ wrap64 (1 * wordSize) ≤ Builder.maxSize

/-- What asking for a word comes to. -/
inductive Allocated (a : Assembly) : EStateM.Result Failure Assembly Int → Prop
  | ok {place : Int} {b : Builder} {data : Array UInt8}
      (fits : WordFits a.builder.program.wordSize) (given : a.builder.alloc 1 = .ok (place, b))
      (program : b.program = { a.builder.program with data := data }) :
      Allocated a (.ok place { a with builder := b })
  | error {size : Int} (unfit : ¬ WordFits a.builder.program.wordSize) :
      Allocated a (.error (.crash (.badSize size)) a)

/-- What entering a symbol comes to. -/
inductive Entered (line : Int) (s : Symbol) (a : Assembly) :
    EStateM.Result Failure Assembly Unit → Prop
  | ok {table : SymbolTable} (added : a.table.add s = .ok table) :
      Entered line s a (.ok () { a with table := table })
  | error (taken : (a.table.entry? s.key).isSome) :
      Entered line s a (.error (.fault line (.duplicate s.key)) a)

/-- A failure to enter a variable: there is no storage for it, or its name is taken. -/
inductive Failure.Refused : Failure → Assembly → Prop
  | size {size : Int} {a : Assembly} (unfit : ¬ WordFits a.builder.program.wordSize) :
      Refused (.crash (.badSize size)) a
  | taken {line : Int} {key : String} {a : Assembly} : Refused (.fault line (.duplicate key)) a

section Declaring

variable {settings : Settings} {line : Int} {a a' : Assembly}

theorem allocWord_given {place : Int} {b : Builder} (given : a.builder.alloc 1 = .ok (place, b)) :
    allocWord a = .ok place { a with builder := b } := by
  refine step_get_bind.trans ?_
  rw [given]
  rfl

theorem allocWord_refused {crash : Crash} (refused : a.builder.alloc 1 = .error crash) :
    allocWord a = .error (.crash crash) a := by
  refine step_get_bind.trans ?_
  rw [refused]
  rfl

theorem allocWord_allocated (a : Assembly) : Allocated a (allocWord a) := by
  by_cases fits : WordFits a.builder.program.wordSize
  · have given : a.builder.alloc 1 = .ok (_, _) :=
      if_neg (not_or.mpr ⟨Int.not_lt.mpr fits.1, Int.not_lt.mpr fits.2⟩)
    rw [allocWord_given given]
    exact .ok fits given rfl
  · rw [WordFits] at fits
    have refused : a.builder.alloc 1 = .error (.badSize _) := if_pos (by omega)
    rw [allocWord_refused refused]
    exact .error fits

theorem allocWord_ok {place : Int} (ok : allocWord a = .ok place a') :
    ∃ b data, WordFits a.builder.program.wordSize ∧ a.builder.alloc 1 = .ok (place, b) ∧
      b.program = { a.builder.program with data := data } ∧ a' = { a with builder := b } := by
  have allocated := allocWord_allocated a
  rw [ok] at allocated
  cases allocated with
  | ok fits given program => exact ⟨_, _, fits, given, program, rfl⟩

theorem allocWord_isOk (fits : WordFits a.builder.program.wordSize) :
    ∃ place a', allocWord a = .ok place a' := by
  have allocated := allocWord_allocated a
  generalize allocWord a = r at allocated
  cases allocated with
  | ok => exact ⟨_, _, rfl⟩
  | error unfit => exact absurd fits unfit

theorem declare_isOk {line : Int} {s : Symbol} {table : SymbolTable}
    (added : a.table.add s = .ok table) : declare line s a = .ok () { a with table := table } := by
  refine step_get_bind.trans ?_
  rw [added]
  rfl

theorem declare_error {line : Int} {s : Symbol} (taken : (a.table.entry? s.key).isSome) :
    declare line s a = .error (.fault line (.duplicate s.key)) a := by
  refine step_get_bind.trans ?_
  obtain ⟨other, found⟩ := Option.isSome_iff_exists.mp taken
  rw [SymbolTable.add, found]
  rfl

theorem declare_entered (line : Int) (s : Symbol) (a : Assembly) :
    Entered line s a (declare line s a) := by
  cases added : a.table.add s with
  | ok table =>
    rw [declare_isOk added]
    exact .ok added
  | error fault =>
    obtain ⟨taken, -⟩ := SymbolTable.add_error added
    rw [declare_error taken]
    exact .error taken

theorem declare_ok {s : Symbol} (ok : declare line s a = .ok () a') :
    ∃ table, a.table.add s = .ok table ∧ a' = { a with table := table } := by
  have entered := declare_entered line s a
  rw [ok] at entered
  cases entered with
  | ok added => exact ⟨_, added, rfl⟩

theorem declare_always (line : Int) (name : Text) (place : Int) :
    Always Declares Failure.Refused (declare line (.ofVariable name place)) := by
  intro a
  have entered := declare_entered line (.ofVariable name place) a
  generalize declare line (.ofVariable name place) a = r at entered
  cases entered with
  | ok added =>
    obtain ⟨-, rfl⟩ := SymbolTable.add_ok added
    exact ⟨⟨_, _, rfl⟩, _, rfl, List.forall_mem_singleton.mpr rfl⟩
  | error => exact ⟨.refl a, .taken⟩

theorem allocWord_always : Always Declares Failure.Refused allocWord := by
  intro a
  have allocated := allocWord_allocated a
  generalize allocWord a = r at allocated
  cases allocated with
  | ok _ _ program =>
    exact ⟨⟨_, _, program⟩, [], (List.append_nil _).symm, List.forall_mem_nil _⟩
  | error unfit => exact ⟨.refl a, .size unfit⟩

theorem declareVariable_always (line : Int) (name : String) :
    Always Declares Failure.Refused (declareVariable line name) :=
  .bind .trans allocWord_always fun place => declare_always line name place

theorem declareVariable_declares (line : Int) (name : String) :
    Keeps Declares (declareVariable line name) :=
  fun _ _ _ => (declareVariable_always line name).of_ok

/-- A variable gets storage, and its name means that storage. -/
theorem allocated_ok {name : Text} {place : Int} {a₁ : Assembly}
    (given : allocWord a = .ok place a₁)
    (entered : declare line (.ofVariable name place) a₁ = .ok () a') :
    Declares a a' ∧ a'.table.variableOf? name = some (.ofVariable name place) := by
  have declares := (declare_always line name place).of_ok entered
  obtain ⟨table, added, rfl⟩ := declare_ok entered
  exact ⟨(allocWord_always.of_ok given).trans declares, SymbolTable.variableOf?_add added⟩

theorem declareParams_cons_ok {line base : Int} {register : Nat} {name : String}
    {rest : List String} {a a' : Assembly}
    (ok : declareParams line register (name :: rest) a = .ok base a') :
    ∃ a₁ a₂ next, allocWord a = .ok base a₁ ∧
      declare line (.ofVariable name base) a₁ = .ok () a₂ ∧
      declareParams line (register + 1) rest
        { a₂ with builder := a₂.builder.emitAll [.storeParam register base] } = .ok next a' := by
  obtain ⟨place, a₁, given, ok⟩ := step_bind_ok_iff.mp ok
  obtain ⟨_, a₂, entered, ok⟩ := step_bind_ok_iff.mp ok
  obtain ⟨_, a₃, emitted, ok⟩ := step_bind_ok_iff.mp ok
  obtain ⟨next, _, others, ok⟩ := step_bind_ok_iff.mp ok
  cases ok
  obtain rfl := step_modify_ok_iff.mp emitted
  exact ⟨a₁, a₂, next, given, entered, others⟩

section Passes

variable {P : ∀ {α : Type}, Asm α → Prop} (steps : Composes P)
  (variable_ : ∀ line name, P (declareVariable line name))
include steps variable_

/-- What entering a variable has, and a fault, the pass over the globals of a module has. -/
theorem declareGlobals_composed (fault_ : ∀ line fault, P (throw (.fault line fault) : Asm PUnit))
    (before : Option Lexeme) (inside : Bool) (line : Int) (lexemes : List Lexeme) :
    P (declareGlobals before inside line lexemes) := by
  induction lexemes generalizing before inside line with
  | nil => exact steps.pure ()
  | cons l rest ih =>
    by_cases newline : l = .endOfLine
    · subst newline
      exact ih _ _ _
    · rw [declareGlobals]
      · refine iteInduction (fun _ => steps.bind (fault_ _ _) fun _ => ?_) fun _ => ?_
        all_goals
          dsimp only
          split
          · refine steps.bind steps.get fun a => iteInduction (fun _ => ?_) fun _ => ih _ _ _
            exact steps.bind (variable_ _ _) fun _ => ih _ _ _
          · exact ih _ _ _
      · exact newline

/-- What entering a variable and the remark on it have, the pass over the locals of a body has. -/
theorem declareLocals_composed (remark_ : ∀ line name, P (remark (.implicitLocal line name)))
    (settings : Settings) (line : Int) (lexemes : List Lexeme) :
    P (declareLocals settings line lexemes) := by
  fun_induction declareLocals settings line lexemes with
  | case1 => exact steps.pure ()
  | case2 line rest ih => exact ih
  | case3 line name more =>
    rename_i ih
    refine steps.bind steps.get fun a => iteInduction (fun _ => ?_) fun _ => ih
    refine steps.bind (variable_ _ _) fun _ => ?_
    exact steps.bind (remark_ _ _) fun _ => ih
  | case4 line rest =>
    rename_i ih
    exact ih
  | case5 line l rest _ _ ih => exact ih

end Passes

/-- What entering a variable and writing an instruction keep, declaring parameters keeps. -/
theorem declareParams_keeps {R : Assembly → Assembly → Prop} (refl : ∀ a, R a a)
    (trans : ∀ {a b c}, R a b → R b c → R a c)
    (variable_ : ∀ line name, Keeps R (declareVariable line name))
    (emit_ : ∀ (a : Assembly) i, R a { a with builder := a.builder.emitAll [i] }) (line : Int)
    (register : Nat) (names : List String) : Keeps R (declareParams line register names) := by
  intro a base a' ok
  induction names generalizing register base a with
  | nil =>
    obtain ⟨-, rfl⟩ := step_pure_ok_iff.mp ok
    exact refl a
  | cons name rest ih =>
    obtain ⟨a₁, a₂, next, given, entered, others⟩ := declareParams_cons_ok ok
    have declared := variable_ line name (step_bind_ok_iff.mpr ⟨base, a₁, given, entered⟩)
    exact trans declared (trans (emit_ a₂ _) (ih _ others))

theorem declareGlobals_declares (before : Option Lexeme) (inside : Bool) (line : Int)
    (lexemes : List Lexeme) : Keeps Declares (declareGlobals before inside line lexemes) :=
  declareGlobals_composed (Keeps.composes .refl .trans) declareVariable_declares
    (fun _ _ => .throw _) before inside line lexemes

theorem declareLocals_always (settings : Settings) (line : Int) (lexemes : List Lexeme) :
    Always Declares Failure.Refused (declareLocals settings line lexemes) :=
  declareLocals_composed (Always.composes Declares.refl .trans _) declareVariable_always
    (fun _ _ _ => Declares.same rfl rfl) settings line lexemes

theorem declareLocals_declares (settings : Settings) (line : Int) (lexemes : List Lexeme) :
    Keeps Declares (declareLocals settings line lexemes) :=
  fun _ _ _ => (declareLocals_always settings line lexemes).of_ok

end Declaring

/-! ## String constants -/

section Source

/-- Reading stores string constants and changes nothing else of the program. -/
def Interns (o o' : Source.Output) : Prop :=
  ∃ data strings, o'.builder.program = { o.builder.program with data := data, strings := strings }

theorem Interns.refl (o : Source.Output) : Interns o o := ⟨_, _, rfl⟩

theorem Interns.trans {o o' o'' : Source.Output} (first : Interns o o') (second : Interns o' o'') :
    Interns o o'' := by
  obtain ⟨data, strings, program⟩ := first
  obtain ⟨data', strings', program'⟩ := second
  exact ⟨data', strings', by rw [program', program]⟩

theorem intern_program (b : Builder) (text : Text) : ∃ data strings,
    (b.intern text).2.program = { b.program with data := data, strings := strings } := by
  unfold Builder.intern
  split
  · exact ⟨_, _, rfl⟩
  · exact ⟨_, _, rfl⟩

section Passes

variable {R : Source.Output → Source.Output → Prop} {A : Failure → Source.Output → Prop}
  (refl : ∀ o, R o o) (trans : ∀ {o p q}, R o p → R p q → R o q)
  (intern : ∀ (o : Source.Output) text, R o { o with builder := (o.builder.intern text).2 })
  (literal_ : ∀ line text o, A (.fault line (.unterminatedLiteral text)) o)
include refl trans intern literal_

theorem spell_always (line : Int) (pieces : List Text) :
    Always R A (Source.spell line pieces) := by
  fun_induction Source.spell (γ := Builder) line pieces with
  | case1 | case2 => exact refl
  | case3 => exact fun o => ⟨refl o, literal_ _ _ o⟩
  | case4 outside literal others _ ih =>
    refine fun o => .after (R := R) trans (intern o literal) ?_
    exact .bind trans (ih _) fun rest o' _ _ => refl o'

variable {settings : Settings} (remark_ : ∀ (o : Source.Output) line c,
    R o { o with cautions := o.cautions ++ (Scanner.scan settings line c).cautions })
  (scan_ : ∀ {line c failure}, (Scanner.scan settings line c).failure? = some failure →
    ∀ o, A failure o)
include remark_ scan_

theorem readLine_always (line : Int) (raw : Text) :
    Always R A (Source.readLine settings line raw) := by
  refine .bind trans (spell_always refl trans intern literal_ _ _) fun text => ?_
  refine .bind trans (fun o => remark_ o _ _) fun _ => ?_
  cases failed : (Scanner.scan settings line ⟨Source.scanned text, 1⟩).failure? with
  | none => exact refl
  | some failure => exact fun o => ⟨refl o, scan_ failed o⟩

/-- What storing a text and remarks on a line do, reading the lines of a module does. -/
theorem readLines_always (before : Nat) (lines : List Text) :
    Always R A (Source.readLines settings before lines) := by
  fun_induction Source.readLines (γ := Builder) settings before lines with
  | case1 => exact refl
  | case2 before raw => exact readLine_always refl trans intern literal_ remark_ scan_ _ raw
  | case3 before raw others _ ih =>
    refine .bind trans (readLine_always refl trans intern literal_ remark_ scan_ _ raw) ?_
    exact fun tokens => .bind trans ih fun more => refl

end Passes

/-- A module is read by going through its lines; only the builder and the remarks change. -/
theorem readSource_ok {settings : Settings} {lines : List Text} {a a' : Assembly}
    {lexemes : List Lexeme} (ok : readSource settings lines a = .ok lexemes a') :
    ∃ tokens o, Source.readLines settings 0 lines ⟨a.builder, a.cautions⟩ = .ok tokens o ∧
      a' = { a with builder := o.builder, cautions := o.cautions } := by
  unfold readSource at ok
  split at ok
  · next tokens o read =>
    cases ok
    obtain ⟨early, _, lines, ended⟩ := step_bind_ok_iff.mp read
    cases ended
    exact ⟨early, _, lines, rfl⟩
  · contradiction

theorem readSource_declares (settings : Settings) (lines : List Text) :
    Keeps Declares (readSource settings lines) := by
  intro a lexemes a' ok
  obtain ⟨tokens, o, read, rfl⟩ := readSource_ok ok
  have stored : Interns ⟨a.builder, a.cautions⟩ o :=
    (readLines_always (A := fun _ _ => True) .refl .trans
      (fun o text => intern_program o.builder text) (fun _ _ _ => trivial)
      (fun _ _ _ => ⟨_, _, rfl⟩) (fun _ _ => trivial) 0 lines).of_ok read
  exact ⟨stored, [], by simp, by simp⟩

end Source

end HighAsm
