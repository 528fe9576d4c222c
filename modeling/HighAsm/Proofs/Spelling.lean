import HighAsm.Expression
import HighAsm.Proofs.Success

/-!
# How expressions are spelled

`Scope.Spells` is the grammar of expressions: a term, and then operators with an operand and stores
with a place, one after the other. It says which lexemes stand for which expression without saying
how they are read. Parsing accepts exactly the lexemes that spell an expression, and finds the only
one that they spell.
-/

namespace HighAsm

/-- The mark that an operator is written with. -/
def BinOp.mark? : BinOp → Option Mark
  | add => some .plus
  | sub => some .minus
  | mul => some .star
  | div => some .slash
  | rem => some .percent
  | and => some .ampersand
  | or => some .bar
  | xor => some .caret
  | undefined _ => none

theorem BinOp.isDefined_of_mark? {op : BinOp} {m : Mark} (named : op.mark? = some m) :
    op.isDefined := by
  cases op with
  | undefined => contradiction
  | _ => rfl

theorem Mark.operator?_eq_some_iff {m : Mark} {op : BinOp} :
    m.operator? = some op ↔ op.mark? = some m := by
  cases op <;> cases m <;> simp [operator?, BinOp.mark?]

namespace Scope

/-- A number stands for itself if it is a signed 64-bit integer, and a name for the variable that it
means. -/
inductive SpellsOperand (scope : Scope) : Lexeme → Operand → Prop
  | number {n : Nat} (small : n < 0x8000000000000000) : SpellsOperand scope (.number n) (.const n)
  | named {name : String} {address : Int} (known : scope.address? name = some address) :
      SpellsOperand scope (.ident name) (.var address)

/-- A constant may always be an offset, a variable only where the settings say so. -/
def AllowsOffset (scope : Scope) : Operand → Prop
  | .const _ => True
  | .var _ => scope.settings.features .variableOffsets = true

/-- Memory that a variable points to, at an offset. A word is written with brackets or with `!`, a
byte with `?`. -/
inductive SpellsIndexed (scope : Scope) : List Lexeme → Int → Operand → Width → Prop
  | bracketed {name : String} {base : Int} {l : Lexeme} {offset : Operand}
      (known : scope.address? name = some base) (spelled : scope.SpellsOperand l offset)
      (allowed : scope.AllowsOffset offset) :
      SpellsIndexed scope [.ident name, .mark .lbracket, l, .mark .rbracket] base offset .word
  | word {name : String} {base : Int} {l : Lexeme} {offset : Operand}
      (known : scope.address? name = some base) (spelled : scope.SpellsOperand l offset)
      (allowed : scope.AllowsOffset offset) :
      SpellsIndexed scope [.ident name, .mark .wordAt, l] base offset .word
  | byte {name : String} {base : Int} {l : Lexeme} {offset : Operand}
      (known : scope.address? name = some base) (spelled : scope.SpellsOperand l offset)
      (allowed : scope.AllowsOffset offset) :
      SpellsIndexed scope [.ident name, .mark .byteAt, l] base offset .byte

inductive SpellsTerm (scope : Scope) : List Lexeme → Term → Prop
  | simple {l : Lexeme} {operand : Operand} (spelled : scope.SpellsOperand l operand) :
      SpellsTerm scope [l] (.simple operand)
  | indexed {lexemes : List Lexeme} {base : Int} {offset : Operand} {width : Width}
      (spelled : scope.SpellsIndexed lexemes base offset width) :
      SpellsTerm scope lexemes (.indexed base offset width)

inductive SpellsOperation (scope : Scope) : List Lexeme → Operation → Prop
  | combine {op : BinOp} {m : Mark} {l : Lexeme} {right : Operand} (named : op.mark? = some m)
      (spelled : scope.SpellsOperand l right) :
      SpellsOperation scope [.mark m, l] (.combine op right)
  | store {name : String} {address : Int} (known : scope.address? name = some address) :
      SpellsOperation scope [.mark .store, .ident name] (.store (.direct address))
  | storeIndexed {lexemes : List Lexeme} {base : Int} {offset : Operand} {width : Width}
      (spelled : scope.SpellsIndexed lexemes base offset width) :
      SpellsOperation scope (.mark .store :: lexemes) (.store (.indexed base offset width))

inductive SpellsOperations (scope : Scope) : List Lexeme → List Operation → Prop
  | nil : SpellsOperations scope [] []
  | cons {lexemes rest : List Lexeme} {o : Operation} {others : List Operation}
      (first : scope.SpellsOperation lexemes o) (later : SpellsOperations scope rest others) :
      SpellsOperations scope (lexemes ++ rest) (o :: others)

/-- The lexemes of an expression: those of its first term, and then those of its operations. -/
def Spells (scope : Scope) (lexemes : List Lexeme) (e : Expression) : Prop :=
  ∃ first rest, lexemes = first ++ rest ∧ scope.SpellsTerm first e.first ∧
    scope.SpellsOperations rest e.operations

variable {scope : Scope} {lexemes : List Lexeme} {t : Term} {operations : List Operation}

/-! ## What is accepted is spelled -/

theorem operand_ok_iff {l : Lexeme} {o : Operand} :
    scope.operand l = .ok o ↔ scope.SpellsOperand l o := by
  constructor
  · intro accepted
    unfold operand at accepted
    split at accepted
    · split at accepted
      · next small =>
        rw [← Except.ok.inj accepted]
        exact .number small
      · contradiction
    · split at accepted
      · next known =>
        rw [← Except.ok.inj accepted]
        exact .named known
      · contradiction
    · contradiction
  · rintro (small | known)
    · simp only [operand, if_pos small]
    · simp only [operand, known]

theorem index_ok_iff {base offset : Lexeme} {width : Width} {address : Int} :
    scope.index base offset width (.var address) = .ok t ↔
      ∃ o, scope.SpellsOperand offset o ∧ scope.AllowsOffset o ∧ t = .indexed address o width := by
  simp only [index, bind_ok_iff, operand_ok_iff]
  refine exists_congr fun o => and_congr_right fun _ => ?_
  cases o with
  | const n => simp [AllowsOffset, eq_comm]
  | var place =>
    by_cases allowed : scope.settings.features .variableOffsets = true
    · simp [AllowsOffset, allowed, eq_comm]
    · simp [AllowsOffset, allowed]

/-- Only a variable is indexed. -/
theorem index_spells {base offset : Lexeme} {width : Width} {operand : Operand}
    (spelled : scope.SpellsOperand base operand)
    (accepted : scope.index base offset width operand = .ok t) :
    ∃ name address o, base = .ident name ∧ scope.address? name = some address ∧
      scope.SpellsOperand offset o ∧ scope.AllowsOffset o ∧ t = .indexed address o width := by
  cases spelled with
  | number n => contradiction
  | named known =>
    obtain ⟨o, offset, allowed, same⟩ := index_ok_iff.mp accepted
    exact ⟨_, _, o, rfl, known, offset, allowed, same⟩

theorem term_spells {used : Nat} (accepted : scope.term lexemes = .ok (t, used)) :
    scope.SpellsTerm (lexemes.take used) t := by
  unfold term at accepted
  split at accepted
  · contradiction
  · next base rest =>
    obtain ⟨operand, read, accepted⟩ := bind_ok_iff.mp accepted
    have spelled := operand_ok_iff.mp read
    split at accepted
    · split at accepted
      · obtain ⟨indexed, found, accepted⟩ := bind_ok_iff.mp accepted
        cases accepted
        obtain ⟨name, address, o, rfl, known, offset, allowed, rfl⟩ := index_spells spelled found
        exact .indexed (.bracketed known offset allowed)
      · contradiction
    · split at accepted
      · obtain ⟨indexed, found, accepted⟩ := bind_ok_iff.mp accepted
        cases accepted
        obtain ⟨name, address, o, rfl, known, offset, allowed, rfl⟩ := index_spells spelled found
        exact .indexed (.word known offset allowed)
      · contradiction
    · split at accepted
      · obtain ⟨indexed, found, accepted⟩ := bind_ok_iff.mp accepted
        cases accepted
        obtain ⟨name, address, o, rfl, known, offset, allowed, rfl⟩ := index_spells spelled found
        exact .indexed (.byte known offset allowed)
      · contradiction
    · cases accepted
      exact .simple spelled

theorem operation?_spells {mark target : Lexeme} {o : Operation}
    {build : Lexeme → Term → Except Fault Operation} (known : operation? mark = some build)
    (spelled : scope.SpellsTerm lexemes t) (built : build target t = .ok o) :
    scope.SpellsOperation (mark :: lexemes) o := by
  unfold operation? at known
  split at known
  · cases known
    obtain ⟨there, placed, rfl⟩ := map_ok_iff.mp built
    cases spelled with
    | simple operand =>
      cases operand with
      | number n => contradiction
      | named address =>
        cases placed
        exact .store address
    | indexed place =>
      cases placed
      exact .storeIndexed place
  · obtain ⟨op, named, rfl⟩ := Option.map_eq_some_iff.mp known
    obtain ⟨second, simple, rfl⟩ := map_ok_iff.mp built
    cases spelled with
    | simple operand =>
      cases simple
      exact .combine (Mark.operator?_eq_some_iff.mp named) operand
    | indexed place => contradiction
  · contradiction

theorem operations_spell {skip : Nat} (accepted : scope.operations skip lexemes = .ok operations) :
    scope.SpellsOperations (lexemes.drop skip) operations := by
  fun_induction Scope.operations scope skip lexemes generalizing operations with
  | case1 skip =>
    cases accepted
    rw [List.drop_nil]
    exact .nil
  | case2 skip _ rest ih => exact ih accepted
  | case3 => contradiction
  | case4 => contradiction
  | case5 mark build known target rest ih =>
    obtain ⟨⟨t, used⟩, read, accepted⟩ := bind_ok_iff.mp accepted
    obtain ⟨first, built, accepted⟩ := bind_ok_iff.mp accepted
    obtain ⟨more, others, accepted⟩ := bind_ok_iff.mp accepted
    cases accepted
    have both := SpellsOperations.cons (operation?_spells known (term_spells read) built)
      (ih used others)
    rwa [List.cons_append, List.take_append_drop] at both

/-! ## What is spelled is accepted -/

/-- A mark that gives the operand before it an offset. -/
def IndexMark (l : Lexeme) : Prop := l = .mark .lbracket ∨ l = .mark .wordAt ∨ l = .mark .byteAt

theorem SpellsTerm.accepted {first rest : List Lexeme} (spelled : scope.SpellsTerm first t)
    (ends : ∀ l ∈ rest.head?, ¬ IndexMark l) :
    scope.term (first ++ rest) = .ok (t, first.length) := by
  cases spelled with
  | simple operand =>
    have read := operand_ok_iff.mpr operand
    rw [List.singleton_append, term]
    refine bind_ok_iff.mpr ⟨_, read, ?_⟩
    split
    · exact absurd (.inl rfl) (ends _ rfl)
    · exact absurd (.inr (.inl rfl)) (ends _ rfl)
    · exact absurd (.inr (.inr rfl)) (ends _ rfl)
    · rfl
  | indexed place =>
    cases place with
    | bracketed known offset allowed | word known offset allowed | byte known offset allowed =>
      refine bind_ok_iff.mpr ⟨_, operand_ok_iff.mpr (.named known), ?_⟩
      exact bind_ok_iff.mpr ⟨_, index_ok_iff.mpr ⟨_, offset, allowed, rfl⟩, rfl⟩

/-- An operation begins with its mark, which builds it from the term behind. -/
theorem SpellsOperation.built {o : Operation} (spelled : scope.SpellsOperation lexemes o) :
    ∃ mark target first t build, lexemes = mark :: target :: first ∧
      scope.SpellsTerm (target :: first) t ∧ operation? mark = some build ∧
      build target t = .ok o ∧ ¬ IndexMark mark := by
  cases spelled with
  | @combine op m l second named operand =>
    refine ⟨.mark m, l, [], .simple second, fun target t => (right target t).map (.combine op), rfl,
      .simple operand, ?_, rfl, ?_⟩
    · cases op <;> cases named <;> rfl
    · cases op <;> cases named <;> simp [IndexMark]
  | store known =>
    exact ⟨_, _, [], _, _, rfl, .simple (.named known), rfl, rfl, by simp [IndexMark]⟩
  | storeIndexed place =>
    have notIndex : ¬ IndexMark (.mark .store) := by simp [IndexMark]
    cases place with
    | bracketed known offset allowed =>
      exact ⟨_, _, _, _, _, rfl, .indexed (.bracketed known offset allowed), rfl, rfl, notIndex⟩
    | word known offset allowed =>
      exact ⟨_, _, _, _, _, rfl, .indexed (.word known offset allowed), rfl, rfl, notIndex⟩
    | byte known offset allowed =>
      exact ⟨_, _, _, _, _, rfl, .indexed (.byte known offset allowed), rfl, rfl, notIndex⟩

theorem SpellsOperations.head (spelled : scope.SpellsOperations lexemes operations) :
    ∀ l ∈ lexemes.head?, ¬ IndexMark l := by
  cases spelled with
  | nil => simp
  | cons first later =>
    obtain ⟨mark, target, others, t, build, rfl, -, -, -, notIndex⟩ := first.built
    intro l here
    cases here
    exact notIndex

theorem operations_skip (first rest : List Lexeme) :
    scope.operations first.length (first ++ rest) = scope.operations 0 rest := by
  induction first with
  | nil => rfl
  | cons l others ih => rw [List.cons_append, List.length_cons, operations, ih]

theorem SpellsOperations.accepted (spelled : scope.SpellsOperations lexemes operations) :
    scope.operations 0 lexemes = .ok operations := by
  induction spelled with
  | nil => rw [Scope.operations]
  | @cons _ rest o others first later ih =>
    obtain ⟨mark, target, more, t, build, rfl, term, known, built, -⟩ := first.built
    have read := term.accepted later.head
    have skipped : scope.operations (target :: more).length (target :: more ++ rest) = .ok others :=
      (operations_skip (target :: more) rest).trans ih
    simp only [List.cons_append, Scope.operations, known]
    refine bind_ok_iff.mpr ⟨(t, (target :: more).length), read, ?_⟩
    exact bind_ok_iff.mpr ⟨o, built, bind_ok_iff.mpr ⟨others, skipped, rfl⟩⟩

/-- Lexemes are accepted as an expression exactly when they spell it. -/
theorem expression_ok_iff {e : Expression} :
    scope.expression lexemes = .ok e ↔ scope.Spells lexemes e := by
  constructor
  · intro accepted
    obtain ⟨⟨first, used⟩, read, accepted⟩ := bind_ok_iff.mp accepted
    obtain ⟨operations, others, accepted⟩ := bind_ok_iff.mp accepted
    cases accepted
    exact ⟨lexemes.take used, lexemes.drop used, (List.take_append_drop ..).symm, term_spells read,
      operations_spell others⟩
  · rintro ⟨first, rest, rfl, term, operations⟩
    have skipped := (operations_skip first rest).trans operations.accepted
    refine bind_ok_iff.mpr ⟨(e.first, first.length), term.accepted operations.head, ?_⟩
    exact bind_ok_iff.mpr ⟨e.operations, skipped, rfl⟩

end Scope

end HighAsm
