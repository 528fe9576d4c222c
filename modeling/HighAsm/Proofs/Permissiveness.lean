import HighAsm.Proofs.Robustness

/-!
# Permissive features

Three features only let more sources through: locals that are made by storing to them, hexadecimal
numbers, and variables as offsets. A module that is assembled without one of them is assembled in
the same way with it. Where scanning or parsing succeeds without the feature, it gives the same with
it. Locals are another matter, because they are given storage before anything is parsed: there an
accepted body has no store left whose variable is not known already.
-/

namespace HighAsm

open Assembly

/-- Whether a feature does no more than let more sources through. -/
def Feature.isPermissive : Feature → Bool
  | implicitLocals | hexLiterals | variableOffsets => true
  | indexVariable => false

/-- The settings with some permissive features switched on. -/
def Settings.permit (s : Settings) (more : Feature → Bool) : Settings :=
  { s with features := fun f => s.features f || (f.isPermissive && more f) }

/-- What is resolved against the settings with some permissive features switched on. -/
def Scope.permit (scope : Scope) (more : Feature → Bool) : Scope :=
  { scope with settings := scope.settings.permit more }

/-! ## Carrying successes over -/

/-- What one check accepts, another one accepts with the same result. -/
def Widens {ε α : Type} (x y : Except ε α) : Prop := ∀ r, x = .ok r → y = .ok r

namespace Widens

variable {ε α β : Type} {x y : Except ε α}

theorem refl (x : Except ε α) : Widens x x := fun _ accepted => accepted

theorem error (e : ε) : Widens (.error e) x := by
  intro r accepted
  contradiction

theorem bind {next next' : α → Except ε β} (first : Widens x y)
    (second : ∀ r, Widens (next r) (next' r)) : Widens (x >>= next) (y >>= next') := by
  intro b accepted
  obtain ⟨a, early, late⟩ := bind_ok_iff.mp accepted
  exact bind_ok_iff.mpr ⟨a, first a early, second a b late⟩

theorem map {f : α → β} (widens : Widens x y) : Widens (x.map f) (y.map f) := by
  intro b accepted
  obtain ⟨a, early, rfl⟩ := map_ok_iff.mp accepted
  exact map_ok_iff.mpr ⟨a, widens a early, rfl⟩

theorem ite {c : Prop} [Decidable c] {x₂ y₂ : Except ε α} (yes : Widens x y)
    (no : Widens x₂ y₂) : Widens (if c then x else x₂) (if c then y else y₂) := by
  split
  · exact yes
  · exact no

end Widens

/-- Where one computation succeeds, another one does the same. -/
def Repeats {ε σ α : Type} (x y : EStateM ε σ α) : Prop := ∀ s r t, x s = .ok r t → y s = .ok r t

namespace Repeats

variable {ε σ α β : Type} {x y : EStateM ε σ α}

theorem refl (x : EStateM ε σ α) : Repeats x x := fun _ _ _ ok => ok

theorem bind {next next' : α → EStateM ε σ β} (first : Repeats x y)
    (second : ∀ r, Repeats (next r) (next' r)) : Repeats (x >>= next) (y >>= next') := by
  intro s b t ok
  obtain ⟨a, u, early, late⟩ := step_bind_ok_iff.mp ok
  exact step_bind_ok_iff.mpr ⟨a, u, first s a u early, second a u b t late⟩

theorem ite {c : Prop} [Decidable c] {x₂ y₂ : EStateM ε σ α} (yes : Repeats x y)
    (no : Repeats x₂ y₂) : Repeats (if c then x else x₂) (if c then y else y₂) := by
  split
  · exact yes
  · exact no

end Repeats

variable {settings : Settings} {more : Feature → Bool}

/-! ## Scanning -/

namespace Scanner

variable {line : Int}

/-- The mark of a hexadecimal number is no part of a decimal one. -/
theorem value?_marked (rest : List Char) :
    value? 10 (('0' :: 'x' :: rest).takeWhile isNamePart) = none := by
  have zero : isNamePart '0' = true := by decide
  have mark : isNamePart 'x' = true := by decide
  rfl

theorem readNumber_permit {cs : List Char} {l : Lexeme}
    (read : (readNumber settings line cs).result = .ok l) :
    readNumber (settings.permit more) line cs = readNumber settings line cs := by
  by_cases same : baseOf (settings.permit more) cs = baseOf settings cs
  · unfold readNumber
    rw [same]
    rfl
  · unfold baseOf at same
    split at same
    · next rest =>
      cases hex : settings.features .hexLiterals with
      | true => exact absurd (by simp [Settings.permit, hex]) same
      | false => simp [readNumber, baseOf, hex, value?_marked] at read
    · exact absurd rfl same

theorem read_permit {c : Char} {cs : List Char} {l : Lexeme}
    (accepted : (read settings line c cs).result = .ok l) :
    read (settings.permit more) line c cs = read settings line c cs := by
  unfold read at accepted ⊢
  split
  · rfl
  · next notName =>
    rw [if_neg notName] at accepted
    split
    · next digit =>
      rw [if_pos digit] at accepted
      exact readNumber_permit accepted
    · rfl

theorem next_permit {c : Cursor} {t : Token} (accepted : (next settings line c).result = .ok t) :
    next (settings.permit more) line c = next settings line c := by
  unfold next at accepted ⊢
  cases rest : c.skipSpaces.rest with
  | nil => simp only [rest]
  | cons first others =>
    simp only [rest] at accepted ⊢
    obtain ⟨l, accepted, -⟩ := map_ok_iff.mp accepted
    rw [read_permit accepted]

theorem scan_permit {c : Cursor} (clean : (scan settings line c).failure? = none) :
    scan (settings.permit more) line c = scan settings line c := by
  refine scan_eq_of_next False (fun c read => ?_) (.inr clean)
  obtain ⟨t, read⟩ := read.resolve_left not_false
  exact next_permit read

end Scanner

namespace Source

variable {γ : Type} [StringAllocator γ]

theorem readLine_repeats (line : Int) (raw : Text) :
    Repeats (readLine (γ := γ) settings line raw)
      (readLine (settings.permit more) line raw) := by
  refine .bind (.refl _) fun text => ?_
  cases clean : (Scanner.scan settings line ⟨scanned text, 1⟩).failure? with
  | none =>
    rw [Scanner.scan_permit clean]
    exact .refl _
  | some failure =>
    intro o tokens o' ok
    obtain ⟨_, _, _, ok⟩ := step_bind_ok_iff.mp ok
    rw [clean] at ok
    exact absurd ok step_throw_ne_ok

theorem readLines_repeats (before : Nat) (lines : List Text) :
    Repeats (readLines (γ := γ) settings before lines)
      (readLines (settings.permit more) before lines) := by
  fun_induction readLines (γ := γ) settings before lines with
  | case1 => exact .refl _
  | case2 before raw => exact readLine_repeats _ raw
  | case3 before raw others several ih =>
    rw [readLines]
    · exact .bind (readLine_repeats _ raw) fun tokens => .bind ih fun rest => .refl _
    · exact several

theorem read_repeats (lines : List Text) :
    Repeats (read (γ := γ) settings lines) (read (settings.permit more) lines) :=
  .bind (readLines_repeats 0 lines) fun _ => .refl _

end Source

/-! ## Parsing -/

namespace Scope

variable {scope : Scope}

theorem index_widens (base offset : Lexeme) (width : Width) (o : Operand) :
    Widens (scope.index base offset width o) ((scope.permit more).index base offset width o) := by
  cases o with
  | const n => exact .refl _
  | var address =>
    refine .bind (.refl _) fun o => ?_
    cases o with
    | const n => exact .refl _
    | var place =>
      dsimp only
      by_cases on : scope.settings.features .variableOffsets = true
      · have still : (scope.permit more).settings.features .variableOffsets = true := by
          simp [permit, Settings.permit, on]
        rw [if_pos on, if_pos still]
        exact .refl _
      · rw [if_neg on]
        exact .error _

theorem term_widens (lexemes : List Lexeme) :
    Widens (scope.term lexemes) ((scope.permit more).term lexemes) := by
  cases lexemes with
  | nil => exact .refl _
  | cons base rest =>
    refine .bind (.refl _) fun operand => ?_
    split
    iterate 3
      · split
        · exact .bind (index_widens _ _ _ _) fun _ => .refl _
        · exact .error _
    · exact .refl _

theorem operations_widens (skip : Nat) (lexemes : List Lexeme) :
    Widens (scope.operations skip lexemes) ((scope.permit more).operations skip lexemes) := by
  fun_induction Scope.operations scope skip lexemes with
  | case1 => exact .refl _
  | case2 skip _ rest ih => exact ih
  | case3 => exact .error _
  | case4 => exact .error _
  | case5 mark build known target rest ih =>
    simp only [Scope.operations, known]
    refine .bind (term_widens _) fun read => .bind (.refl _) fun _ => ?_
    exact .bind (ih read.2) fun _ => .refl _

theorem expression_widens (lexemes : List Lexeme) :
    Widens (scope.expression lexemes) ((scope.permit more).expression lexemes) :=
  .bind (term_widens _) fun read => .bind (operations_widens read.2 _) fun _ => .refl _

end Scope

namespace Statement

variable {scope : Scope}

theorem condition_widens (block : Block) (inner : List Lexeme) :
    Widens (condition scope block inner) (condition (scope.permit more) block inner) :=
  .bind (.refl _) fun _ => .map (Scope.expression_widens _)

theorem count_widens (inner : List Lexeme) :
    Widens (count scope inner) (count (scope.permit more) inner) := by
  refine .ite (.error _) (.bind (Scope.expression_widens _) fun e => ?_)
  have same : (scope.permit more).settings.features .indexVariable =
      scope.settings.features .indexVariable := by
    simp [Scope.permit, Settings.permit, Feature.isPermissive]
  rw [same]
  exact .refl _

theorem arguments_permit (name : String) (position : Nat) (lexemes : List Lexeme) :
    arguments (scope.permit more) name position lexemes =
      arguments scope name position lexemes := by
  fun_induction arguments scope name position lexemes with
  | case1 => rfl
  | case2 position l => rfl
  | case3 position l comma rest other => rw [arguments, if_pos other]
  | case4 position l comma rest comma' ih =>
    rw [arguments, if_neg comma', ih]
    rfl

theorem callOf_permit (name : String) (inner : List Lexeme) :
    callOf (scope.permit more) name inner = callOf scope name inner := by
  unfold callOf
  rw [arguments_permit]
  rfl

/-- A statement that is accepted is accepted as the same with more features. -/
theorem parse_widens (first : Lexeme) (rest : List Lexeme) :
    Widens (parse scope first rest) (parse (scope.permit more) first rest) := by
  unfold parse
  split
  · exact .refl _
  · exact .refl _
  · next block =>
    refine .bind (.refl _) fun inner => ?_
    cases block with
    | ifBlock | whileLoop => exact .bind (.map (condition_widens _ _)) fun _ => .refl _
    | forLoop => exact .bind (.map (count_widens _)) fun _ => .refl _
  · split
    · simp only [callOf_permit]
      exact .refl _
    · exact .bind (Scope.expression_widens _) fun _ => .refl _

end Statement

/-! ## Stores of an accepted body -/

/-- Wherever some lexemes store, the name of a variable follows. -/
def SymbolTable.Aims (t : SymbolTable) : List Lexeme → Prop
  | [] => True
  | l :: rest =>
    (l = .mark .store → ∃ name more, rest = .ident name :: more ∧ (t.variableOf? name).isSome) ∧
      t.Aims rest

namespace SymbolTable.Aims

variable {t : SymbolTable}

theorem append {first second : List Lexeme} (aims : t.Aims first) (later : t.Aims second) :
    t.Aims (first ++ second) := by
  induction first with
  | nil => exact later
  | cons l rest ih =>
    refine ⟨fun store => ?_, ih aims.2⟩
    obtain ⟨name, more, rfl, known⟩ := aims.1 store
    exact ⟨name, more ++ second, rfl, known⟩

theorem of_free {lexemes : List Lexeme} (free : ∀ l ∈ lexemes, l ≠ .mark .store) :
    t.Aims lexemes := by
  induction lexemes with
  | nil => trivial
  | cons l rest ih =>
    have ⟨here, later⟩ := List.forall_mem_cons.mp free
    exact ⟨fun store => absurd store here, ih later⟩

end SymbolTable.Aims

namespace Scope

variable {scope : Scope} {lexemes : List Lexeme}

theorem SpellsOperand.not_store {l : Lexeme} {o : Operand} (spelled : scope.SpellsOperand l o) :
    l ≠ .mark .store := by
  cases spelled <;> simp

theorem isSome_variableOf? {name : String} {address : Int}
    (known : scope.address? name = some address) : (scope.table.variableOf? name).isSome := by
  obtain ⟨s, found, -⟩ := Option.map_eq_some_iff.mp known
  exact Option.isSome_iff_exists.mpr ⟨s, found⟩

/-- Memory that a variable points to is written with its name first and without a store. -/
theorem SpellsIndexed.named {base : Int} {offset : Operand} {width : Width}
    (spelled : scope.SpellsIndexed lexemes base offset width) :
    (∃ name more, lexemes = .ident name :: more ∧ (scope.table.variableOf? name).isSome) ∧
      ∀ l ∈ lexemes, l ≠ .mark .store := by
  cases spelled with
  | bracketed known spelled | word known spelled | byte known spelled =>
    exact ⟨⟨_, _, rfl, isSome_variableOf? known⟩, by simp [spelled.not_store]⟩

theorem SpellsTerm.aims {t : Term} (spelled : scope.SpellsTerm lexemes t) :
    scope.table.Aims lexemes := by
  cases spelled with
  | simple spelled => exact .of_free (by simp [spelled.not_store])
  | indexed spelled => exact .of_free spelled.named.2

theorem SpellsOperation.aims {o : Operation} (spelled : scope.SpellsOperation lexemes o) :
    scope.table.Aims lexemes := by
  cases spelled with
  | @combine op m l right named spelled =>
    have other : m ≠ .store := by
      rintro rfl
      cases op <;> contradiction
    exact .of_free (by simp [other, spelled.not_store])
  | store known => exact ⟨fun _ => ⟨_, _, rfl, isSome_variableOf? known⟩, .of_free (by simp)⟩
  | storeIndexed spelled => exact ⟨fun _ => spelled.named.1, .of_free spelled.named.2⟩

theorem Spells.aims {e : Expression} (spelled : scope.Spells lexemes e) :
    scope.table.Aims lexemes := by
  obtain ⟨first, rest, rfl, term, operations⟩ := spelled
  refine term.aims.append ?_
  generalize e.operations = others at operations
  induction operations with
  | nil => trivial
  | cons first _ ih => exact first.aims.append ih

theorem SpellsArguments.aims {args : List Operand} (spelled : scope.SpellsArguments lexemes args) :
    scope.table.Aims lexemes := by
  induction spelled with
  | none => trivial
  | last spelled => exact .of_free (by simp [spelled.not_store])
  | @more l rest _ _ spelled _ _ ih =>
    have here : scope.table.Aims [l, .mark .comma] := .of_free (by simp [spelled.not_store])
    exact here.append ih

end Scope

namespace Statement

variable {scope : Scope} {lexemes : List Lexeme}

theorem Spelled.aims {s : Statement} (spelled : Spelled scope lexemes s) :
    scope.table.Aims lexemes := by
  -- Around the parentheses of a statement nothing is stored.
  have around (first : List Lexeme) {inner last : List Lexeme} (aims : scope.table.Aims inner)
      (before : ∀ l ∈ first, l ≠ .mark .store) (behind : ∀ l ∈ last, l ≠ .mark .store) :
      scope.table.Aims (first ++ (inner ++ last)) :=
    .append (.of_free before) (.append aims (.of_free behind))
  cases spelled with
  | ret | close block => exact .of_free (by simp)
  | eval spelled => exact spelled.aims
  | @call name _ inner _ _ spelled _ =>
    exact around [.ident name, .mark .lparen] spelled.aims (by simp) (by simp)
  | @openIf _ _ r spelled | @openWhile _ _ r spelled =>
    rw [List.append_assoc]
    refine around [.keyword (.opens _), .mark .lparen] spelled.aims (by simp) ?_
    cases r <;> simp [Relation.mark]
  | openFor spelled _ =>
    exact around [.keyword (.opens .forLoop), .mark .lparen] spelled.aims (by simp)
      (by simp)

theorem SpelledAll.aims {read : List Statement} (spelled : SpelledAll scope lexemes read) :
    scope.table.Aims lexemes := by
  induction spelled with
  | nil => trivial
  | line _ ih | colon _ ih => exact ⟨by simp, ih⟩
  | cons first _ _ ih => exact first.aims.append ih

end Statement

/-- What is assembled without more features is assembled with them. -/
theorem Point.Arrives.permit {p q : Point} (arrives : p.Arrives settings q) :
    p.Arrives (settings.permit more) q := by
  induction arrives with
  | refl p => exact .refl p
  | step first _ ih =>
    refine .step ?_ ih
    cases first with
    | skip => exact .skip
    | line => exact .line
    | colon => exact .colon
    | @statement blocks left flow l rest a a' s used notLine notColon parsed stated =>
      have widens : Widens (Statement.parse ⟨settings, a.table⟩ l rest)
          (Statement.parse ⟨settings.permit more, a.table⟩ l rest) := Statement.parse_widens l rest
      exact .statement notLine notColon (widens _ parsed) stated

namespace Assembly

variable {lexemes : List Lexeme} {a a' : Assembly} {line : Int} {blocks : List OpenBlock}

theorem statements_aims {flow : Flow} (ok : statements settings 0 blocks flow lexemes a = .ok
    () a') :
    a.table.Aims lexemes := by
  obtain ⟨read, accepted⟩ := statements_sequence ok
  exact (Statement.sequence_spelled accepted).aims

/-- No local is made where the feature is off, or where every store goes to a known variable. -/
theorem declareLocals_idle
    (idle : settings.features .implicitLocals = false ∨ a.table.Aims lexemes) :
    declareLocals settings line lexemes a = .ok () a := by
  fun_induction declareLocals settings line lexemes with
  | case1 => rfl
  | case2 line rest ih => exact ih (idle.imp_right And.right)
  | case3 line name more =>
    rename_i ih
    refine step_bind_ok_iff.mpr ⟨a, a, rfl, ?_⟩
    rw [if_neg]
    · exact ih (idle.imp_right And.right)
    · rcases idle with off | aims
      · simp [off]
      · obtain ⟨_, _, same, known⟩ := aims.1 rfl
        cases same
        simp [Option.isSome_iff_ne_none.mp known]
  | case4 line rest _ notName ih | case5 line l rest notLine notStore ih =>
    exact ih (idle.imp_right And.right)

theorem declareLocals_congr {s : Settings}
    (same : s.features .implicitLocals = settings.features .implicitLocals) (line : Int)
    (lexemes : List Lexeme) :
    declareLocals s line lexemes = declareLocals settings line lexemes := by
  fun_induction declareLocals settings line lexemes with
  | case1 => rfl
  | case2 line rest ih => exact ih
  | case3 line name more =>
    rename_i ih
    rw [declareLocals, same, ih]
  | case4 line rest _ notName ih =>
    rw [declareLocals]
    · exact ih
    · exact notName
  | case5 line l rest notLine notStore ih =>
    rw [declareLocals]
    · exact ih
    · exact notLine
    · exact notStore

/-! ## Assembling -/

theorem statements_repeats (skip : Nat) (blocks : List OpenBlock) (flow : Flow)
    (lexemes : List Lexeme) :
    Repeats (statements settings skip blocks flow lexemes)
      (statements (settings.permit more) skip blocks flow lexemes) := by
  intro a r a' ok
  obtain ⟨_, _, _, _, -, arrives⟩ := statements_arrive ok
  exact arrives.permit.finish_eq.trans (arrives.finish_eq.symm.trans ok)

/-- Storage for locals is asked for alike with and without more features. -/
theorem body_repeats (lexemes : List Lexeme) :
    Repeats (body settings lexemes) (body (settings.permit more) lexemes) := by
  intro a r a' ok
  replace ok := step_get_ok ok
  obtain ⟨_, a₁, declared, stated⟩ := step_bind_ok_iff.mp ok
  refine step_bind_ok_iff.mpr ⟨a, a, rfl, step_bind_ok_iff.mpr ⟨(), a₁, ?_,
    statements_repeats 0 [] {} lexemes a₁ r a' stated⟩⟩
  cases locals : settings.features .implicitLocals with
  | true =>
    have still : (settings.permit more).features .implicitLocals =
        settings.features .implicitLocals := by simp [Settings.permit, locals]
    rw [declareLocals_congr still]
    exact declared
  | false =>
    -- Without the feature nothing is declared, so every store is to a variable of before.
    have idle : declareLocals settings a.line lexemes a = .ok () a :=
      declareLocals_idle (.inl locals)
    obtain ⟨-, rfl⟩ := EStateM.Result.ok.inj (declared.symm.trans idle)
    exact declareLocals_idle (.inr (statements_aims stated))

theorem procedures_repeats (sources : List ProcedureSource) :
    Repeats (procedures settings sources) (procedures (settings.permit more) sources) := by
  induction sources with
  | nil => exact .refl _
  | cons source rest ih =>
    refine .bind (.refl _) fun _ => .bind (.refl _) fun _ => ?_
    exact .bind (body_repeats _) fun _ => ih

theorem readSource_repeats (lines : List Text) :
    Repeats (readSource settings lines) (readSource (settings.permit more) lines) := by
  intro a lexemes a' ok
  unfold readSource at ok ⊢
  split at ok
  · next read =>
    rw [Source.read_repeats lines _ _ _ read]
    exact ok
  · contradiction

theorem assembleModule_repeats (lines : List Text) :
    Repeats (assembleModule settings lines) (assembleModule (settings.permit more) lines) := by
  refine .bind (.refl _) fun _ => .bind (.refl _) fun a => ?_
  refine .ite (.bind (.refl _) fun _ => ?_) ?_
  all_goals
    refine .bind (readSource_repeats lines) fun lexemes => .bind (.refl _) fun _ => ?_
    exact .bind (procedures_repeats _) fun _ => .refl _

theorem attemptModules_permit {modules : List (List Text)}
    (accepted : ∀ result ∈ (attemptModules settings modules a).1, result.isOk = true) :
    attemptModules (settings.permit more) modules a = attemptModules settings modules a := by
  induction modules generalizing a with
  | nil => rfl
  | cons lines rest ih =>
    rw [attemptModules] at accepted
    rw [attemptModules, attemptModules]
    cases result : assembleModule settings lines a with
    | error failure a' =>
      rw [result] at accepted
      exact absurd (accepted _ List.mem_cons_self) Bool.false_ne_true
    | ok r a' =>
      rw [result] at accepted
      rw [assembleModule_repeats lines _ _ _ result]
      simp only
      rw [ih fun later member => accepted later (List.mem_cons_of_mem _ member)]

/-- Modules that are all accepted are accepted with more permissive features as well: every module
ends with the same table, and what is left is the same altogether, with the same program, the same
requests to the builder in the same order and with the same answers, and the same remarks. -/
theorem permit_keeps_accepted_modules (settings : Settings) (more : Feature → Bool)
    (modules : List (List Text))
    (accepted : ∀ result ∈ (attemptModules settings modules (start settings)).1,
      result.isOk = true) :
    attemptModules (settings.permit more) modules (start (settings.permit more)) =
      attemptModules settings modules (start settings) :=
  attemptModules_permit accepted

/-- No permissive feature is on. -/
def strictSettings : Settings := { features := fun f => !f.isPermissive }

/-- A module that sums words behind a pointer, and one that calls it and stores the result. -/
def strictModules : List (List Text) :=
  [["proc $sum(p, n)", "0>$total", "for(n)", "p!0+$total>$total : p+2>p", "endfor",
      "$total>$return"].map Text.ofString,
    ["proc main(q)", "if(q[2]#0) $sum(q, 3) : $return>q[2] endif", "endproc"].map Text.ofString]

theorem permit_keeps_accepted_strictModules :
    (attemptModules strictSettings strictModules (start strictSettings)).1.map Except.isOk =
        [true, true] ∧
      attemptModules (strictSettings.permit fun _ => true) strictModules
          (start (strictSettings.permit fun _ => true)) =
        attemptModules strictSettings strictModules (start strictSettings) := by
  have ended : (attemptModules strictSettings strictModules (start strictSettings)).1.map
      Except.isOk = [true, true] := by decide +kernel
  refine ⟨ended, permit_keeps_accepted_modules _ _ _ fun result member => ?_⟩
  have listed := List.mem_map_of_mem (f := Except.isOk) member
  rw [ended] at listed
  simpa using listed

end Assembly

end HighAsm
