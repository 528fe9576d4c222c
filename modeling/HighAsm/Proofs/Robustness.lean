import HighAsm.Proofs.Linking

/-!
# Assembling comes to an end in order

Whatever the lines of a module are, assembling it ends with a table or with a fault, and so does
every module after it. Nothing crashes: there is storage for any word, and the jumps that are
completed stand where the assembler remembers them (`Assembly.Tracks`). The loop over a body ends
because every round takes lexemes away (`Turn.next_drop`).
-/

namespace HighAsm

open List Assembly

/-! ## Reading -/

/-- A fault was found in the text. -/
def Failure.IsFault : Failure → Prop
  | .fault _ _ => True
  | .crash _ => False

/-- Storage of a size that cannot be had was asked for, or the largest word of a negative size. -/
def Failure.IsSize : Failure → Prop
  | .crash (.badSize _) | .crash .negativeWordSize => True
  | _ => False

/-- A fault was found, or the size of words is negative. -/
def Settings.Blames (settings : Settings) (failure : Failure) : Prop :=
  failure.IsFault ∨ settings.maxWord? = none ∧ failure = .crash .negativeWordSize

namespace Scanner

/-- What scanning a line fails with: a malformed expression on that line, or a number while words
have a negative size. -/
inductive Fails (settings : Settings) (line : Int) : Failure → Prop
  | fault {why : Fault} (malformed : why.kind = .malformedExpression) :
      Fails settings line (.fault line why)
  | size (negative : settings.maxWord? = none) : Fails settings line (.crash .negativeWordSize)

variable {settings : Settings} {line : Int} {failure : Failure}

theorem Fails.blames (fails : Fails settings line failure) : settings.Blames failure := by
  cases fails with
  | fault => exact .inl trivial
  | size negative => exact .inr ⟨negative, rfl⟩

theorem readNumber_error {cs : List Char}
    (failed : (readNumber settings line cs).result = .error failure) :
    Fails settings line failure := by
  unfold readNumber at failed
  dsimp only at failed
  split at failed
  · obtain rfl := Except.error.inj failed
    exact .fault rfl
  · split at failed
    · next negative =>
      obtain rfl := Except.error.inj failed
      exact .size negative
    · contradiction

theorem read_error {c : Char} {cs : List Char}
    (failed : (read settings line c cs).result = .error failure) : Fails settings line failure := by
  unfold read at failed
  split at failed
  · dsimp only [readName] at failed
    split at failed
    · obtain rfl := Except.error.inj failed
      exact .fault rfl
    · split at failed
      · contradiction
      · contradiction
  · split at failed
    · exact readNumber_error failed
    · split at failed
      · contradiction
      · obtain rfl := Except.error.inj failed
        exact .fault rfl

theorem next_error {c : Cursor} (failed : (next settings line c).result = .error failure) :
    Fails settings line failure := by
  unfold next at failed
  dsimp only at failed
  split at failed
  · contradiction
  · next first others _ =>
    cases reading : (read settings line first others).result with
    | ok l =>
      rw [reading] at failed
      contradiction
    | error failure' =>
      rw [reading] at failed
      obtain rfl := Except.error.inj failed
      exact read_error reading

theorem scan_error {c : Cursor} (failed : (scan settings line c).failure? = some failure) :
    Fails settings line failure := by
  fun_induction scan settings line c with
  | case1 c early result =>
    cases failed
    exact next_error result
  | case2 => contradiction
  | case3 c t _ _ more ih => exact ih failed

end Scanner

section Reading

variable {settings : Settings}

/-- Reading stores string constants and finds faults. -/
theorem readSource_blames (lines : List Text) :
    Always Declares (fun failure _ => settings.Blames failure) (readSource settings lines) := by
  intro a
  have lines_ : Always Interns (fun failure _ => settings.Blames failure)
      (Source.readLines settings 0 lines) :=
    readLines_always .refl .trans (fun o text => intern_program o.builder text)
      (fun _ _ _ => .inl trivial) (fun _ _ _ => ⟨_, _, rfl⟩)
      (fun failed _ => (Scanner.scan_error failed).blames) 0 lines
  have ends : Ends Interns (fun failure _ => settings.Blames failure) ⟨a.builder, a.cautions⟩
      (Source.read settings lines ⟨a.builder, a.cautions⟩) :=
    .bind .trans (lines_ _) fun _ o _ _ => .refl o
  unfold readSource
  split
  · next tokens o read =>
    rw [read] at ends
    exact ⟨ends, [], (append_nil _).symm, forall_mem_nil _⟩
  · next failure o read =>
    rw [read] at ends
    exact ⟨⟨ends.1, [], (append_nil _).symm, forall_mem_nil _⟩, ends.2⟩

end Reading

/-! ## Steps that survive -/

/-- What every step leaves, also one that fails: words have their size, and the code is not
shorter. -/
structure Grown (a a' : Assembly) : Prop where
  wordSize : a'.builder.program.wordSize = a.builder.program.wordSize
  longer : a.builder.program.code.size ≤ a'.builder.program.code.size

namespace Grown

variable {a a' a'' : Assembly}

theorem of_builder (same : a'.builder = a.builder) : Grown a a' :=
  ⟨by rw [same], Nat.le_of_eq (by rw [same])⟩

theorem refl (a : Assembly) : Grown a a := of_builder rfl

theorem trans (first : Grown a a') (second : Grown a' a'') : Grown a a'' :=
  ⟨second.wordSize.trans first.wordSize, Nat.le_trans first.longer second.longer⟩

theorem of_follows (follows : Follows a a') : Grown a a' :=
  ⟨by rw [follows.program]; rfl, follows.longer⟩

theorem of_declares (declares : Declares a a') : Grown a a' := by
  obtain ⟨data, strings, program⟩ := declares.program
  exact ⟨by rw [program], Nat.le_of_eq (by rw [program])⟩

theorem not_addressable (grown : Grown a a') (tooLong : ¬ a.builder.program.Addressable) :
    ¬ a'.builder.program.Addressable :=
  fun short => tooLong (Nat.lt_of_le_of_lt grown.longer short)

end Grown

/-- Words of a size can be stored, and the settings know the largest of them. -/
def Settings.Provides (settings : Settings) (wordSize : Int) : Prop :=
  settings.maxWord?.isSome ∧ WordFits wordSize

/-- A failure is excused: it is a fault in the text, there are no words of the size that is asked
for, or the code has more instructions than addresses can count. -/
inductive Failure.Excused (settings : Settings) (failure : Failure) (a : Assembly) : Prop
  | fault (found : failure.IsFault)
  | size (asked : failure.IsSize) (missing : ¬ settings.Provides a.builder.program.wordSize)
  | length (tooLong : ¬ a.builder.program.Addressable)

/-- What a step may come to. -/
abbrev Assembly.Survives {α : Type} (settings : Settings) (a : Assembly)
    (r : EStateM.Result Failure Assembly α) : Prop :=
  Ends Grown (Failure.Excused settings) a r

/-- A step survives wherever it is taken. -/
def Sturdy {α : Type} (settings : Settings) (x : Asm α) : Prop :=
  ∀ a : Assembly, a.Survives settings (x a)

namespace Sturdy

variable {settings : Settings} {α β : Type} {x : Asm α}

theorem pure (r : α) : Sturdy settings (Pure.pure r : Asm α) := Grown.refl

theorem bind {next : α → Asm β} (first : Sturdy settings x)
    (second : ∀ r, Sturdy settings (next r)) : Sturdy settings (x >>= next) :=
  Always.bind .trans first second

theorem get : Sturdy settings (MonadState.get : Asm Assembly) := Grown.refl

theorem modify {f : Assembly → Assembly} (grown : ∀ a, Grown a (f a)) :
    Sturdy settings (modifyGet fun a => (PUnit.unit, f a) : Asm PUnit) := grown

theorem throw (line : Int) (fault : Fault) :
    Sturdy settings (MonadExcept.throw (Failure.fault line fault) : Asm α) :=
  fun a => ⟨.refl a, .fault trivial⟩

theorem fail (fault : Fault) : Sturdy settings (Assembly.fail fault : Asm α) :=
  .bind .get fun _ => .throw _ _

theorem check (x : Except Fault α) : Sturdy settings (Assembly.check x) := by
  cases x with
  | error fault => exact .fail fault
  | ok r => exact .pure r

end Sturdy

section Steps

variable {settings : Settings}

/-- Entering variables fails only because their names are taken or there are no words. -/
theorem Sturdy.of_declares {α : Type} {x : Asm α} (always : Always Declares Failure.Refused x) :
    Sturdy settings x := by
  refine fun a => (always a).imp (fun a' => .of_declares) fun failure a' _ _ refused => ?_
  cases refused with
  | size unfit => exact .size trivial fun provided => unfit provided.2
  | taken => exact .fault trivial

theorem declare_sturdy (line : Int) (s : Symbol) : Sturdy settings (declare line s) := by
  refine .bind .get fun a => ?_
  cases a.table.add s with
  | ok table => exact .modify fun a => .of_builder rfl
  | error fault => exact .throw line fault

theorem emit_sturdy (code : List Instr) : Sturdy settings (emit code) :=
  .modify fun a => .of_follows (.emitAll a code)

theorem declareParams_sturdy (line : Int) (register : Nat) (names : List String) :
    Sturdy settings (declareParams line register names) := by
  induction names generalizing register with
  | nil => exact .pure 0
  | cons name rest ih =>
    refine .bind (.of_declares allocWord_always) fun place => .bind (declare_sturdy _ _) fun _ => ?_
    exact .bind (emit_sturdy _) fun _ => .bind (ih _) fun _ => .pure _

theorem header_sturdy (lexemes : List Lexeme) : Sturdy settings (header settings lexemes) := by
  refine .bind (.check _) fun (name, params) => ?_
  refine iteInduction (fun _ => .bind (.fail _) fun _ => ?_) fun _ => ?_
  all_goals
    refine .bind (.modify fun a => ⟨rfl, Nat.le_refl _⟩) fun _ => ?_
    refine .bind (.bind .get fun _ => .pure _) fun entry => .bind .get fun a => ?_
    exact .bind (declareParams_sturdy _ _ _) fun base => declare_sturdy _ _

theorem readSource_sturdy (lines : List Text) : Sturdy settings (readSource settings lines) := by
  intro a
  refine (readSource_blames lines a).imp (fun a' => .of_declares) fun failure a' _ _ blames => ?_
  rcases blames with fault | ⟨negative, rfl⟩
  · exact .fault fault
  · refine .size trivial fun provided => ?_
    rw [Settings.Provides, negative] at provided
    exact absurd provided.1 Bool.false_ne_true

end Steps

/-! ## Structures are closed where they were opened -/

/-- As long as the code can be addressed, the structures that the assembler takes to be open are
those of the code. -/
def Assembly.Tracks (a : Assembly) (blocks : List OpenBlock) : Prop :=
  a.builder.program.Addressable →
    ∃ start levels text, Stands start levels text blocks a.builder.program

theorem Assembly.tracks_nil (a : Assembly) : a.Tracks [] := by
  intro _
  exact ⟨_, [], .nil, .begin _⟩

section Statements

variable {blocks left : List OpenBlock} {s : Statement} {failure : Failure} {a a' : Assembly}
  {others : List OpenBlock} {top : OpenBlock}

theorem complete_error {x : Except Crash Builder}
    (failed : complete x others a = .error failure a') : ∃ crash, x = .error crash ∧ a' = a := by
  cases x with
  | ok b => contradiction
  | error crash =>
    cases failed
    exact ⟨crash, rfl, rfl⟩

/-- The innermost open structure can be closed, as long as the code can be addressed. -/
theorem Assembly.Tracks.close_ok (tracks : a.Tracks (top :: others))
    (addressable : a.builder.program.Addressable)
    (looped : top.block = .whileLoop → a.builder.program.code.size + 1 < 0x8000000000000000) :
    ∃ a', statement (top :: others) (.close top.block) a = .ok others a' := by
  obtain ⟨start, levels, text, stands⟩ := tracks addressable
  obtain _ | ⟨l, outer⟩ := levels
  · exact absurd stands.blocks (by simp [Level.pending])
  obtain ⟨front, whole, -, kept⟩ := stands.innermost
  obtain ⟨rfl, rfl⟩ := List.cons.inj kept
  rw [Opening.block_pending] at looped ⊢
  obtain ⟨b, closed, -⟩ := statement_close _ whole addressable looped
  exact ⟨_, closed⟩

/-- Closing the innermost structure fails only where the code cannot be addressed. -/
theorem Assembly.Tracks.close_error (tracks : a.Tracks (top :: others))
    (failed : statement (top :: others) (.close top.block) a = .error failure a') :
    Grown a a' ∧ ¬ a'.builder.program.Addressable := by
  have grown : Grown a a' ∧ (top.block = .whileLoop →
      a'.builder.program.code.size = a.builder.program.code.size + 1) := by
    rw [statement_close_eq] at failed
    cases top with
    | ifBlock | forLoop =>
      obtain ⟨crash, -, rfl⟩ := complete_error failed
      exact ⟨.refl _, nofun⟩
    | whileLoop start leave jump =>
      obtain ⟨crash, -, rfl⟩ := complete_error failed
      exact ⟨.of_follows (.emitAll a _), fun _ => by simp [Builder.emitAll_program]⟩
  refine ⟨grown.1, fun addressable => ?_⟩
  obtain ⟨b, closed⟩ := tracks.close_ok (Nat.lt_of_le_of_lt grown.1.longer addressable)
    fun loop => grown.2 loop ▸ addressable
  cases closed.symm.trans failed

/-- A failure of a statement: a fault in the text, unless the code has more instructions than
addresses can count. -/
def Failure.OfText (failure : Failure) (a : Assembly) : Prop :=
  failure.IsFault ∨ ¬ a.builder.program.Addressable

/-- Whatever a statement is, it fails only for its text, and the structures that are open after it
are those of the code again. -/
theorem statement_ends {limit : Int} {known : Procedure → Prop} (tracks : a.Tracks blocks)
    (sound : s.Sound limit known) :
    Ends Grown Failure.OfText a (statement blocks s a) ∧
      ∀ left a', statement blocks s a = .ok left a' → a'.Tracks left := by
  refine ⟨?_, fun left a' stated addressable => ?_⟩
  · cases result : statement blocks s a with
    | ok left a' => exact .of_follows (statement_follows result)
    | error failure a' =>
      have stated := statement_stated blocks s a
      rw [result] at stated
      cases stated with
      | mismatch => exact ⟨.refl _, .inl trivial⟩
      | crash open_ closes =>
        subst open_ closes
        obtain ⟨grown, tooLong⟩ := tracks.close_error result
        exact ⟨grown, .inr tooLong⟩
  · have grown := Grown.of_follows (statement_follows stated)
    obtain ⟨start, levels, text, stands⟩ := tracks (Nat.lt_of_le_of_lt grown.longer addressable)
    obtain ⟨levels', text', stands', -⟩ := statement_nests stands sound stated addressable
    exact ⟨start, levels', text', stands'⟩

theorem statements_ends (settings : Settings) (lexemes : List Lexeme)
    (tracks : a.Tracks blocks) (skip : Nat) (flow : Flow) :
    Ends Grown Failure.OfText a (statements settings skip blocks flow lexemes a) := by
  obtain ⟨q, arrives, halts⟩ := Point.arrives settings ⟨skip, blocks, flow, lexemes, a⟩
  have reached : q.assembly.Tracks q.blocks := by
    intro addressable
    obtain ⟨start, levels, text, stands⟩ :=
      tracks (Nat.lt_of_le_of_lt arrives.follows.longer addressable)
    obtain ⟨read, -, -, nests⟩ := arrives.nests
    obtain ⟨levels', text', stands', -⟩ := nests addressable stands
    exact ⟨start, levels', text', stands'⟩
  refine .after .trans (.of_follows arrives.follows) ?_
  change Ends Grown Failure.OfText q.assembly
    (Point.finish settings ⟨skip, blocks, flow, lexemes, a⟩)
  generalize Point.finish settings ⟨skip, blocks, flow, lexemes, a⟩ = r at halts ⊢
  cases halts with
  | ended => exact .of_builder rfl
  | unclosed => exact ⟨.refl _, .inl trivial⟩
  | unparsed => exact ⟨.of_builder rfl, .inl trivial⟩
  | @refused blocks flow l rest a a' s used failure notLine notColon parsed failed =>
    let b : Assembly := { a with cautions := flow.cautions a ++ (s.caution? a.line).toList }
    have ends := (statement_ends (a := b) reached (Statement.parse_spelled parsed).1.sound).1
    rw [failed] at ends
    have remarked : Grown a b := .of_builder rfl
    exact ⟨remarked.trans ends.1, ends.2⟩

end Statements

/-! ## Modules -/

section Modules

variable {settings : Settings}

theorem body_sturdy (lexemes : List Lexeme) : Sturdy settings (body settings lexemes) := by
  refine .bind .get fun _ => .bind (.of_declares (declareLocals_always _ _ _)) fun _ a => ?_
  refine (statements_ends settings lexemes a.tracks_nil 0 {}).imp (fun _ => id)
    fun failure a' _ _ ofText => ?_
  rcases ofText with found | tooLong
  · exact .fault found
  · exact .length tooLong

theorem procedures_sturdy (sources : List ProcedureSource) :
    Sturdy settings (procedures settings sources) := by
  induction sources with
  | nil => exact .pure ()
  | cons source rest ih =>
    refine .bind (.modify fun _ => .of_builder rfl) fun _ => ?_
    exact .bind (header_sturdy _) fun _ => .bind (body_sturdy _) fun _ => ih

theorem assembleModule_sturdy (settings : Settings) (lines : List Text) :
    Sturdy settings (assembleModule settings lines) := by
  refine .bind (.modify fun _ => .of_builder rfl) fun _ => .bind .get fun a => ?_
  have globals (lexemes : List Lexeme) :
      Sturdy settings (declareGlobals none false 1 lexemes) :=
    declareGlobals_composed (Always.composes .refl .trans _)
      (fun line name => Sturdy.of_declares (declareVariable_always line name))
      (fun _ _ => Sturdy.throw _ _) none false 1 lexemes
  refine iteInduction
    (fun _ => .bind (.of_declares (declareVariable_always _ _)) fun _ => ?_) fun _ => ?_
  all_goals
    refine .bind (readSource_sturdy _) fun lexemes => ?_
    refine .bind (globals _) fun _ => .bind (procedures_sturdy _) fun _ => ?_
    exact .modify fun _ => .of_builder rfl

/-- Assembles modules one after the other. Each goes on from what the ones before have left, also
from those that failed, and ends with a table or with a failure. -/
def attemptModules (settings : Settings) :
    List (List Text) → Assembly → List (Except Failure SymbolTable) × Assembly
  | [], a => ([], a)
  | lines :: rest, a =>
    match assembleModule settings lines a with
    | .ok _ a' => (attemptModules settings rest a').map (.ok a'.table :: ·) id
    | .error failure a' => (attemptModules settings rest a').map (.error failure :: ·) id

/-- Where every module is assembled, the attempt comes to the same and none of it fails. -/
theorem attemptModules_of_ok {modules : List (List Text)} {a a' : Assembly}
    (ok : assembleModules settings modules a = .ok () a') :
    (attemptModules settings modules a).2 = a' ∧
      ∀ failure, .error failure ∉ (attemptModules settings modules a).1 := by
  induction modules generalizing a with
  | nil =>
    cases ok
    exact ⟨rfl, fun _ => not_mem_nil⟩
  | cons lines rest ih =>
    obtain ⟨_, b, first, later⟩ := step_bind_ok_iff.mp ok
    obtain ⟨ends, sound⟩ := ih later
    rw [attemptModules, first]
    refine ⟨ends, fun failure member => ?_⟩
    rcases mem_cons.mp member with same | member
    · contradiction
    · exact sound failure member

theorem attemptModules_end (modules : List (List Text)) {a : Assembly}
    (provides : settings.Provides a.builder.program.wordSize) :
    Grown a (attemptModules settings modules a).2 ∧
      ((attemptModules settings modules a).2.builder.program.Addressable →
        ∀ failure, .error failure ∈ (attemptModules settings modules a).1 → failure.IsFault) := by
  induction modules generalizing a with
  | nil => exact ⟨.refl a, fun _ _ member => absurd member not_mem_nil⟩
  | cons lines rest ih =>
    have survives := assembleModule_sturdy settings lines a
    rw [attemptModules]
    cases result : assembleModule settings lines a with
    | ok _ a' =>
      rw [result] at survives
      have grown : Grown a a' := survives
      obtain ⟨later, faults⟩ := ih (a := a') (by rwa [grown.wordSize])
      refine ⟨grown.trans later, fun addressable failure member => ?_⟩
      rcases mem_cons.mp member with same | member
      · contradiction
      · exact faults addressable failure member
    | error failure a' =>
      rw [result] at survives
      obtain ⟨grown, excused⟩ := survives
      have provides' : settings.Provides a'.builder.program.wordSize := by rwa [grown.wordSize]
      obtain ⟨later, faults⟩ := ih provides'
      refine ⟨grown.trans later, fun addressable other member => ?_⟩
      rcases mem_cons.mp member with same | member
      · obtain rfl := Except.error.inj same
        cases excused with
        | fault found => exact found
        | size asked missing => exact absurd provides' missing
        | length tooLong => exact absurd addressable (later.not_addressable tooLong)
      · exact faults addressable other member

end Modules

/-! ## The loop over a body -/

namespace Statement

/-- The number of lexemes up to the next separator, or up to the next reserved word behind the first
lexeme. In front of a separator it is zero. -/
def reach : List Lexeme → Nat
  | [] => 0
  | first :: rest =>
    if endsExpression first && !first.isKeyword then 0
    else (rest.takeWhile fun l => !endsExpression l).length + 1

/-- The number of lexemes that a statement takes, told from its kind and the text alone. -/
def extent (lexemes : List Lexeme) : Statement → Nat
  | ret | close _ => 1
  | eval _ => reach lexemes
  | call .. | openIf .. | openWhile .. | openFor .. =>
    (lexemes.takeWhile fun l => l != .mark .rparen).length + 1

theorem takeWhile_not_rparen {l : Lexeme} (other : l ≠ .mark .rparen) (rest : List Lexeme) :
    ((l :: rest).takeWhile fun l => l != .mark .rparen) =
      l :: rest.takeWhile fun l => l != .mark .rparen := by
  simp [other]

theorem parenthesized_extent {first : Lexeme} {rest inner : List Lexeme}
    (enclosed : parenthesized first rest = .ok inner) :
    (rest.takeWhile fun l => l != .mark .rparen).length = inner.length + 1 ∧
      inner.length + 2 ≤ rest.length ∧ .endOfLine ∉ rest.take (inner.length + 2) := by
  have written := parenthesized_ok enclosed
  obtain ⟨after, rfl, once, inline⟩ := parenthesized_split enclosed
  refine ⟨?_, by simp, ?_⟩
  · rw [takeWhile_not_rparen (by simp), takeWhile_append_of_pos (by grind)]
    simp
  · rw [written]
    simpa using inline

/-- A statement takes at least one lexeme, and no more than there are on its line. -/
theorem parse_extent {scope : Scope} {first : Lexeme} {rest : List Lexeme} {s : Statement}
    {used : Nat} (parsed : parse scope first rest = .ok (s, used)) :
    s.extent (first :: rest) = used + 1 ∧ used ≤ rest.length ∧ .endOfLine ∉ rest.take used := by
  unfold parse at parsed
  split at parsed
  · cases parsed
    exact ⟨rfl, Nat.zero_le _, not_mem_nil⟩
  · cases parsed
    exact ⟨rfl, Nat.zero_le _, not_mem_nil⟩
  · next block =>
    obtain ⟨inner, enclosed, parsed⟩ := bind_ok_iff.mp parsed
    obtain ⟨inside, within⟩ := parenthesized_extent enclosed
    have taken : ((Lexeme.keyword (.opens block) :: rest).takeWhile
        fun l => l != .mark .rparen).length = inner.length + 2 := by
      rw [takeWhile_not_rparen (by simp), length_cons, inside]
    cases block with
    | ifBlock | whileLoop | forLoop =>
      obtain ⟨opened, read, parsed⟩ := bind_ok_iff.mp parsed
      cases parsed
      refine ⟨?_, within⟩
      obtain ⟨⟨e, _⟩, -, rfl⟩ := map_ok_iff.mp read
      rw [extent, taken]
  · split at parsed
    · next name more _ _ _ =>
      obtain ⟨inner, enclosed, parsed⟩ := bind_ok_iff.mp parsed
      obtain ⟨inside, within⟩ := parenthesized_extent enclosed
      obtain ⟨called, resolved, parsed⟩ := bind_ok_iff.mp parsed
      cases parsed
      refine ⟨?_, within⟩
      unfold callOf at resolved
      split at resolved
      · contradiction
      · obtain ⟨args, -, resolved⟩ := bind_ok_iff.mp resolved
        split at resolved
        · contradiction
        · cases resolved
          rw [extent, takeWhile_not_rparen (by simp), length_cons, inside]
    · obtain ⟨e, expression, parsed⟩ := bind_ok_iff.mp parsed
      cases parsed
      refine ⟨?_, (List.takeWhile_prefix _).length_le, ?_⟩
      · rw [extent, reach]
        split
        · next separator =>
          rw [if_pos separator] at expression
          contradiction
        · rfl
      · rw [← prefix_iff_eq_take.mp (List.takeWhile_prefix _)]
        intro member
        exact absurd (all_eq_true.mp all_takeWhile _ member) (by decide)

end Statement

/-- Where the loop over a body stands: the open structures, what is known of the body, and the
lexemes that are left. -/
structure Turn where
  blocks : List OpenBlock := []
  flow : Flow := {}
  lexemes : List Lexeme

namespace Turn

variable {settings : Settings} {t t' : Turn} {a a' : Assembly}

/-- A statement is assembled, and as many lexemes are passed over as it takes. -/
def take (settings : Settings) (t : Turn) (l : Lexeme) (rest : List Lexeme) : Asm Turn := do
  modify fun a => { a with cautions := t.flow.cautions a }
  let (left, used) ← compile settings t.blocks l rest
  return ⟨left, t.flow.behind l left, rest.drop used⟩

/-- One round of the loop, over a separator or a statement. -/
def next (settings : Settings) (t : Turn) : Asm Turn :=
  match t.lexemes with
  | [] => pure t
  | .endOfLine :: rest => do
    modify fun a => { a with line := a.line + 1 }
    return { t with lexemes := rest }
  | .mark .colon :: rest => return { t with lexemes := rest }
  | l :: rest => t.take settings l rest

/-- What the assembler does with the rest of a body. -/
def finish (settings : Settings) (t : Turn) : Asm Unit :=
  statements settings 0 t.blocks t.flow t.lexemes

/-- The loop over a body with a limit on its rounds. The result says whether its end was reached. -/
def loop (settings : Settings) (limit : Nat) (t : Turn) : Asm Bool :=
  if t.lexemes.isEmpty then do
    t.finish settings
    return true
  else
    match limit with
    | 0 => return false
    | limit + 1 => do loop settings limit (← t.next settings)

theorem take_unparsed {l : Lexeme} {rest : List Lexeme} {fault : Fault}
    (rejected : Statement.parse ⟨settings, a.table⟩ l rest = .error fault) :
    t.take settings l rest a =
      .error (.fault a.line fault) { a with cautions := t.flow.cautions a } := by
  refine (step_bind_eq_of_ok rfl).trans ?_
  exact step_bind_error_iff.mpr (.inl (compile_unparsed rest rejected))

theorem take_parsed {l : Lexeme} {rest : List Lexeme} {s : Statement} {used : Nat}
    (parsed : Statement.parse ⟨settings, a.table⟩ l rest = .ok (s, used)) :
    t.take settings l rest a =
      (Assembly.statement t.blocks s >>= fun left =>
        pure ⟨left, t.flow.after s left, rest.drop used⟩)
      { a with cautions := t.flow.cautions a ++ (s.caution? a.line).toList } := by
  let b : Assembly := { a with cautions := t.flow.cautions a }
  have compiled : compile settings t.blocks l rest b = _ := compile_parsed rest parsed
  refine (step_bind_eq_of_ok rfl).trans ?_
  rw [step_bind_congr compiled, bind_assoc]
  simp only [pure_bind, Flow.behind_of_parsed parsed]
  rfl

theorem next_cons (settings : Settings) (a : Assembly) (l : Lexeme) (rest : List Lexeme)
    (here : t.lexemes = l :: rest) :
    (l = .endOfLine ∧ t.next settings a = .ok { t with lexemes := rest }
        { a with line := a.line + 1 }) ∨
      (l = .mark .colon ∧ t.next settings a = .ok { t with lexemes := rest } a) ∨
      l ≠ .endOfLine ∧ l ≠ .mark .colon ∧ t.next settings = t.take settings l rest := by
  unfold next
  rw [here]
  split
  · contradiction
  · next same =>
    cases same
    exact .inl ⟨rfl, rfl⟩
  · next same =>
    cases same
    exact .inr (.inl ⟨rfl, rfl⟩)
  · next notLine notColon same =>
    cases same
    exact .inr (.inr ⟨fun line => notLine line, fun colon => notColon colon, rfl⟩)

/-- Every round takes at least one lexeme away, and no more than there are. -/
theorem next_drop (goesOn : t.lexemes ≠ []) (ok : t.next settings a = .ok t' a') :
    ∃ n, 1 ≤ n ∧ n ≤ t.lexemes.length ∧ t'.lexemes = t.lexemes.drop n := by
  obtain ⟨l, rest, here⟩ := exists_cons_of_ne_nil goesOn
  rw [here]
  rcases next_cons settings a l rest here with
    ⟨rfl, passed⟩ | ⟨rfl, passed⟩ | ⟨-, -, taken⟩
  · obtain ⟨rfl, -⟩ := EStateM.Result.ok.inj (passed.symm.trans ok)
    exact ⟨1, Nat.le_refl 1, Nat.succ_pos _, rfl⟩
  · obtain ⟨rfl, -⟩ := EStateM.Result.ok.inj (passed.symm.trans ok)
    exact ⟨1, Nat.le_refl 1, Nat.succ_pos _, rfl⟩
  · rw [taken] at ok
    cases parsed : Statement.parse ⟨settings, a.table⟩ l rest with
    | error fault =>
      rw [take_unparsed parsed] at ok
      contradiction
    | ok read =>
      obtain ⟨s, used⟩ := read
      rw [take_parsed parsed] at ok
      obtain ⟨left, a'', -, ok⟩ := step_bind_ok_iff.mp ok
      cases ok
      have most := (Statement.parse_extent parsed).2.1
      exact ⟨used + 1, Nat.succ_pos used, Nat.succ_le_succ most, rfl⟩

theorem statements_skip {blocks : List OpenBlock} {flow : Flow} {lexemes : List Lexeme} {skip : Nat}
    (most : skip ≤ lexemes.length) :
    statements settings skip blocks flow lexemes =
      statements settings 0 blocks flow (lexemes.drop skip) := by
  induction skip generalizing lexemes with
  | zero => rfl
  | succ skip ih =>
    cases lexemes with
    | nil => contradiction
    | cons l rest => exact ih (Nat.le_of_succ_le_succ most)

/-- The rest of a body is assembled by one round and what comes after it. -/
theorem finish_next (goesOn : t.lexemes ≠ []) :
    t.finish settings a = (t.next settings >>= fun t' => t'.finish settings) a := by
  obtain ⟨l, rest, here⟩ := exists_cons_of_ne_nil goesOn
  rw [finish, here]
  rcases next_cons settings a l rest here with
    ⟨rfl, passed⟩ | ⟨rfl, passed⟩ | ⟨notLine, notColon, taken⟩
  · rw [step_bind_eq_of_ok passed]
    rfl
  · rw [step_bind_eq_of_ok passed]
    rfl
  · rw [taken]
    cases parsed : Statement.parse ⟨settings, a.table⟩ l rest with
    | error fault =>
      rw [step_bind_error_iff.mpr (.inl (take_unparsed parsed)),
        statements_unparsed_eq notLine notColon parsed]
    | ok read =>
      obtain ⟨s, used⟩ := read
      rw [statements_parsed_eq notLine notColon parsed, step_bind_congr (take_parsed parsed),
        bind_assoc]
      refine step_next_congr fun left a' _ => ?_
      rw [statements_skip (Statement.parse_extent parsed).2.1, pure_bind, finish]

/-- With as many rounds as there are lexemes the loop comes to its end, and does what the assembler
does with the body. -/
theorem loop_eq {limit : Nat} (enough : t.lexemes.length ≤ limit) :
    t.loop settings limit a = (t.finish settings >>= fun _ => pure true) a := by
  induction limit generalizing t a with
  | zero =>
    rw [loop, eq_nil_of_length_eq_zero (Nat.le_zero.mp enough)]
    rfl
  | succ limit ih =>
    by_cases ended : t.lexemes = []
    · rw [loop, ended]
      rfl
    · rw [loop, if_neg (by simp [ended]), step_bind_congr (finish_next ended), bind_assoc]
      refine step_next_congr fun t' a' passed => ih ?_
      obtain ⟨n, least, most, left⟩ := next_drop ended passed
      rw [left, length_drop]
      omega

end Turn

/-! ## Any modules at all -/

theorem Settings.provides_of_sized {settings : Settings}
    (sized : settings.wordSize = 1 ∨ settings.wordSize = 2) :
    settings.Provides settings.wordSize := by
  unfold Provides WordFits Settings.maxWord?
  rcases sized with one | two
  · rw [one]
    decide
  · rw [two]
    decide

theorem length_attemptModules (settings : Settings) (modules : List (List Text)) (a : Assembly) :
    (attemptModules settings modules a).1.length = modules.length := by
  induction modules generalizing a with
  | nil => rfl
  | cons lines rest ih =>
    rw [attemptModules]
    split
    · exact congrArg Nat.succ (ih _)
    · exact congrArg Nat.succ (ih _)

/-- Where words have one byte or two, any modules are assembled one after the other, whatever their
lines are and whether or not the ones before have failed. Each ends with a table or with a fault,
never with a crash; closing a structure where none is open is a fault. The loop over a body comes to
its end within as many rounds as there are lexemes, since every round takes at least one of those
that are left. -/
theorem assembling_ends_in_order {settings : Settings}
    (sized : settings.wordSize = 1 ∨ settings.wordSize = 2) (modules : List (List Text))
    (addressable :
      (attemptModules settings modules (start settings)).2.builder.program.Addressable) :
    (attemptModules settings modules (start settings)).1.length = modules.length ∧
      (∀ result ∈ (attemptModules settings modules (start settings)).1,
        (∃ table, result = .ok table) ∨ ∃ line fault, result = .error (.fault line fault)) ∧
      (∀ block rest (a : Assembly), compile settings [] (.keyword (.closes block)) rest a =
        .error (.fault a.line (.mismatch block none)) a) ∧
      (∀ (t : Turn) a, t.loop settings t.lexemes.length a =
        (t.finish settings >>= fun _ => pure true) a) ∧
      ∀ (t t' : Turn) a a', t.lexemes ≠ [] → t.next settings a = .ok t' a' →
        ∃ n, 1 ≤ n ∧ n ≤ t.lexemes.length ∧ t'.lexemes = t.lexemes.drop n := by
  have provides : settings.Provides (start settings).builder.program.wordSize :=
    Settings.provides_of_sized sized
  obtain ⟨-, faults⟩ := attemptModules_end modules provides
  refine ⟨length_attemptModules .., ?_, ?_, fun t a => Turn.loop_eq (Nat.le_refl _),
    fun t t' a a' goesOn passed => Turn.next_drop goesOn passed⟩
  · intro result member
    rcases result with (⟨line, fault⟩ | crash) | table
    · exact .inr ⟨line, fault, rfl⟩
    · exact (faults addressable _ member).elim
    · exact .inl ⟨table, rfl⟩
  · intro block rest a
    cases block <;> rfl

/-- A module that closes what is not open, one that is not even a text, and one that is fine. -/
def brokenModules : List (List Text) :=
  [["proc a()", "while(1#0)", "for(3)", "endwhile"], ["proc b(", [0xff, 0x22]],
    ["proc c(x)", "while(x#0):x-1>x:endwhile", "endproc"]]

theorem brokenModules_end_in_order :
    (attemptModules { wordSize := 1 } brokenModules (start { wordSize := 1 })).1.map Except.isOk =
        [false, false, true] ∧
      ∀ result ∈ (attemptModules { wordSize := 1 } brokenModules (start { wordSize := 1 })).1,
        (∃ table, result = .ok table) ∨ ∃ line fault, result = .error (.fault line fault) :=
  ⟨by decide +kernel,
    (assembling_ends_in_order (.inl rfl) brokenModules (by decide +kernel)).2.1⟩

end HighAsm
