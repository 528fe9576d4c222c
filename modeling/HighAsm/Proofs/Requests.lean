import HighAsm.Proofs.Backpatching

/-!
# Requests to a builder

A builder is changed by requests only, and its log tells all of them with their answers. What one
request can do is said once: `perform_alloc_ok` and `perform_string_ok` for storage, and
`perform_other_ok` for the rest, which leaves the storage as it is. `Builder.Grows` relates a
builder to what a row of requests makes of it, and every step of an assembly is such a row.
-/

namespace HighAsm

open List

/-- Whether a request is for storage. -/
def Request.isStorage : Request → Bool
  | .alloc _ | .string _ => true
  | _ => false

theorem Request.storage_cases (r : Request) :
    (∃ count, r = .alloc count) ∨ (∃ text, r = .string text) ∨ r.isStorage = false := by
  cases r with
  | alloc count => exact .inl ⟨count, rfl⟩
  | string text => exact .inr (.inl ⟨text, rfl⟩)
  | begin _ _ | emit _ | patch _ _ _ | openLoop | closeLoop _ => exact .inr (.inr rfl)

/-- The place of a request for words. -/
def Request.words? : Request × Option Int → Option Int
  | (.alloc _, place) => place
  | _ => none

namespace Builder

variable {b b' b'' : Builder} {r : Request} {answer : Option Int}

/-- The places of all requests for words, in order. -/
def words (b : Builder) : List Int := b.log.toList.filterMap Request.words?

/-! ## One request -/

/-- New words are zeros behind the data. -/
theorem perform_alloc_ok {count : Int} (ok : b.perform (.alloc count) = .ok (answer, b')) :
    0 ≤ wrap64 (count * b.program.wordSize) ∧ wrap64 (count * b.program.wordSize) ≤ maxSize ∧
      answer = some b.program.dataEnd ∧
      b'.program = { b.program with
        data := b.program.data ++
          Array.replicate (wrap64 (count * b.program.wordSize)).toNat (0 : UInt8) } ∧
      b'.log = b.log.push (.alloc count, answer) := by
  obtain ⟨⟨place, c⟩, given, same⟩ := map_ok_iff.mp ok
  cases same
  simp only [alloc] at given
  split at given
  · contradiction
  · next legal =>
    cases given
    exact ⟨by omega, by omega, rfl, rfl, rfl⟩

/-- A request for words is answered unless its size is out of range. -/
theorem perform_alloc_isOk {count : Int} (least : 0 ≤ wrap64 (count * b.program.wordSize))
    (most : wrap64 (count * b.program.wordSize) ≤ maxSize) :
    ∃ b', b.perform (.alloc count) = .ok (some b.program.dataEnd, b') := by
  have given : ∃ b', b.alloc count = .ok (b.program.dataEnd, b') := by
    simp only [alloc]
    rw [if_neg (by omega)]
    exact ⟨_, rfl⟩
  obtain ⟨b', given⟩ := given
  exact ⟨b', map_ok_iff.mpr ⟨_, given, rfl⟩⟩

/-- A text that is known keeps its place, and any other one is put behind the data. -/
theorem perform_string_ok {text : Text} (ok : b.perform (.string text) = .ok (answer, b')) :
    b'.log = b.log.push (.string text, answer) ∧
      ((∃ place, (place, text) ∈ b.program.strings ∧ answer = some place ∧
          b'.program = b.program) ∨
        (∀ stored ∈ b.program.strings, stored.2 ≠ text) ∧ answer = some b.program.dataEnd ∧
          b'.program = { b.program with
            data := b.program.data ++ (text ++ [0]).toArray
            strings := b.program.strings ++ [(b.program.dataEnd, text)] }) := by
  rw [perform, intern] at ok
  split at ok
  · next place stored found =>
    have same : stored = text := by simpa using find?_some found
    cases ok
    refine ⟨rfl, .inl ⟨place, ?_, rfl, rfl⟩⟩
    exact same ▸ mem_of_find?_eq_some found
  · next missing =>
    cases ok
    refine ⟨rfl, .inr ⟨?_, rfl, rfl⟩⟩
    intro stored member
    simpa using find?_eq_none.mp missing stored member

/-- A request that is not for storage has no answer and changes code and procedures only. -/
theorem perform_other_ok (ok : b.perform r = .ok (answer, b')) (other : r.isStorage = false) :
    answer = none ∧ b'.log = b.log.push (r, answer) ∧
      ∃ code procedures,
        b'.program = { b.program with code := code, procedures := procedures } := by
  cases r with
  | alloc count => contradiction
  | string text => contradiction
  | begin name params | emit i | openLoop =>
    cases ok
    exact ⟨rfl, rfl, _, _, rfl⟩
  | patch at_ test target =>
    obtain ⟨c, patched, same⟩ := map_ok_iff.mp ok
    cases same
    rw [patch] at patched
    split at patched
    · cases patched
      exact ⟨rfl, rfl, _, _, rfl⟩
    · contradiction
  | closeLoop head =>
    obtain ⟨c, closed, same⟩ := map_ok_iff.mp ok
    cases same
    rw [closeLoop] at closed
    split at closed
    · cases closed
      exact ⟨rfl, rfl, _, _, rfl⟩
    · contradiction

theorem perform_log (ok : b.perform r = .ok (answer, b')) :
    b'.log.toList = b.log.toList ++ [(r, answer)] := by
  have entered : b'.log = b.log.push (r, answer) := by
    rcases r.storage_cases with ⟨count, rfl⟩ | ⟨text, rfl⟩ | other
    · exact (perform_alloc_ok ok).2.2.2.2
    · exact (perform_string_ok ok).1
    · exact (perform_other_ok ok other).2.1
  rw [entered, Array.toList_push]

theorem emitAll_log (b : Builder) (code : List Instr) :
    (b.emitAll code).log.toList = b.log.toList ++ code.map fun i => (.emit i, none) := by
  induction code generalizing b with
  | nil => exact (append_nil _).symm
  | cons i rest ih =>
    have one : (b.emit i).log.toList = b.log.toList ++ [(.emit i, none)] := Array.toList_push
    have step : b.emitAll (i :: rest) = (b.emit i).emitAll rest := rfl
    rw [step, ih, one, append_assoc, map_cons, singleton_append]

/-! ## Rows of requests -/

/-- A row of requests of some kind leads from one builder to another. -/
inductive Grows (kind : Request → Prop) : Builder → Builder → Prop
  | refl (b : Builder) : Grows kind b b
  | step {b b' b'' : Builder} {r : Request} {answer : Option Int} (early : Grows kind b b')
      (allowed : kind r) (ok : b'.perform r = .ok (answer, b'')) : Grows kind b b''

namespace Grows

variable {kind other : Request → Prop}

theorem one (allowed : kind r) (ok : b.perform r = .ok (answer, b')) : Grows kind b b' :=
  .step (.refl b) allowed ok

theorem trans (first : Grows kind b b') (second : Grows kind b' b'') : Grows kind b b'' := by
  induction second with
  | refl => exact first
  | step _ allowed ok ih => exact .step ih allowed ok

theorem mono (grows : Grows kind b b') (wider : ∀ r, kind r → other r) : Grows other b b' := by
  induction grows with
  | refl => exact .refl _
  | step _ allowed ok ih => exact .step ih (wider _ allowed) ok

theorem log (grows : Grows kind b b') :
    ∃ more, b'.log.toList = b.log.toList ++ more ∧ ∀ entry ∈ more, kind entry.1 := by
  induction grows with
  | refl => exact ⟨[], by simp, by simp⟩
  | @step _ _ r answer _ allowed ok ih =>
    obtain ⟨more, early, kinds⟩ := ih
    refine ⟨more ++ [(r, answer)], by rw [perform_log ok, early, append_assoc], ?_⟩
    exact forall_mem_append.mpr ⟨kinds, forall_mem_singleton.mpr allowed⟩

/-- Without requests for words there are no further words. -/
theorem words_eq (grows : Grows kind b b') (noWords : ∀ count, ¬ kind (.alloc count)) :
    b'.words = b.words := by
  obtain ⟨more, late, kinds⟩ := grows.log
  have none_ : more.filterMap Request.words? = [] := by
    apply filterMap_eq_nil_iff.mpr
    intro ⟨r, place⟩ member
    have allowed := kinds _ member
    cases r with
    | alloc count => exact absurd allowed (noWords count)
    | string _ | begin _ _ | emit _ | patch _ _ _ | openLoop | closeLoop _ => rfl
  rw [words, late, filterMap_append, none_, append_nil, words]

theorem emitAll (b : Builder) (code : List Instr) (allowed : ∀ i ∈ code, kind (.emit i)) :
    Grows kind b (b.emitAll code) := by
  induction code generalizing b with
  | nil => exact .refl b
  | cons i rest ih =>
    obtain ⟨first, others⟩ := forall_mem_cons.mp allowed
    have emitted : Grows kind b (b.emit i) := .one first rfl
    exact emitted.trans (ih (b.emit i) others)

end Grows

end Builder

/-! ## Requests of an assembly -/

open Assembly Builder

/-- A step of an assembly makes requests of some kind. -/
def Asks (kind : Request → Prop) (a a' : Assembly) : Prop := a.builder.Grows kind a'.builder

namespace Asks

variable {kind other : Request → Prop} {a a' a'' : Assembly}

theorem same (builder : a'.builder = a.builder) : Asks kind a a' := by
  rw [Asks, builder]
  exact .refl _

theorem trans (first : Asks kind a a') (second : Asks kind a' a'') : Asks kind a a'' :=
  Grows.trans first second

theorem mono (asks : Asks kind a a') (wider : ∀ r, kind r → other r) : Asks other a a' :=
  Grows.mono asks wider

end Asks

/-- Requests that write code. -/
abbrev Request.ForCode (r : Request) : Prop := r.isStorage = false

section Statements

variable {settings : Settings} {blocks left : List OpenBlock} {a a' : Assembly}

theorem asks_emitAll (a : Assembly) (code : List Instr) :
    Asks Request.ForCode a { a with builder := a.builder.emitAll code } :=
  Grows.emitAll a.builder code fun _ _ => rfl

theorem asks_patch {b : Builder} {at_ target : Int} {test : Test}
    (ok : a.builder.patch at_ test target = .ok b) :
    Asks Request.ForCode a { a with builder := b } :=
  Grows.one (r := .patch at_ test target) rfl (map_ok_iff.mpr ⟨b, ok, rfl⟩)

/-- A statement asks for nothing but code. -/
theorem statement_asks {s : Statement} (ok : statement blocks s a = .ok left a') :
    Asks Request.ForCode a a' := by
  cases s with
  | ret | eval _ | call _ _ _ _ =>
    cases ok
    exact asks_emitAll ..
  | openIf e _ | openWhile e _ =>
    cases ok
    exact .trans (asks_emitAll a e.code) (asks_emitAll ..)
  | openFor count index =>
    cases ok
    have counted := asks_emitAll a count.code
    have opened : Asks Request.ForCode { a with builder := a.builder.emitAll count.code }
        { a with builder := (a.builder.emitAll count.code).openLoop } :=
      Grows.one (r := .openLoop) rfl rfl
    exact (counted.trans opened).trans (asks_emitAll ..)
  | close block =>
    obtain ⟨top, _, _, rfl, rfl, -⟩ := statement_close_ok ok
    cases top with
    | ifBlock skip jump =>
      obtain ⟨-, b, patched, rfl⟩ := complete_ok_iff.mp ok
      exact asks_patch patched
    | whileLoop start leave jump =>
      obtain ⟨-, b, patched, rfl⟩ := complete_ok_iff.mp ok
      exact .trans (asks_emitAll a [.jump .always start]) (asks_patch patched)
    | forLoop head =>
      obtain ⟨-, b, closed, rfl⟩ := complete_ok_iff.mp ok
      exact Grows.one (r := .closeLoop head) rfl (map_ok_iff.mpr ⟨b, closed, rfl⟩)

theorem statements_asks {skip : Nat} {flow : Flow} {lexemes : List Lexeme}
    (ok : statements settings skip blocks flow lexemes a = .ok () a') :
    Asks Request.ForCode a a' :=
  statements_relates ok (fun _ _ _ => .same rfl) .trans statement_asks

end Statements

end HighAsm
