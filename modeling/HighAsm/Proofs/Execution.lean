import HighAsm.Proofs.Entries

/-!
# What a text prescribes

`Runs` says how a text is carried out, by its structure alone: statements in order, the text of a
structure as often as its head says, a call as the whole text of the routine that is called. Jumps,
counters and frames do not occur in it. What is prescribed is listed as `Segment`s of code, each
with what is seen when it begins.
-/

namespace HighAsm

/-- What statements see of a machine. -/
structure View where
  memory : Memory
  acc : Int
  params : Registers

/-- Instructions that are carried out in a row: the position of the first of them, their number,
and what is seen before them. -/
structure Segment where
  position : Nat
  length : Nat
  view : View

/-- How a text is left: at its end, or by a return from the routine. -/
inductive Exit
  | through | returned
  deriving DecidableEq, Repr

/-- The routines of a program, the address of their code, and the number of bytes of a word. -/
structure Library where
  base : Int
  wordSize : Int
  routines : List Routine

/-- The library that a program made of routines is. -/
def Program.library (p : Program) (routines : List Routine) : Library :=
  ⟨p.codeBase, p.wordSize, routines⟩

namespace View

/-- What is seen after an expression: its value is in the accumulator. -/
def evaluate (size : Int) (e : Expression) (v : View) : View :=
  { v with
    acc := (e.evaluate size v.memory).1
    memory := (e.evaluate size v.memory).2 }

/-- What is seen after arguments were copied to the first parameter registers. -/
def pass (size : Int) (args : List Operand) (v : View) : View :=
  { v with params := v.params.fill 0 (args.map (·.wordIn size v.memory)) }

/-- Memory after parameter registers from one on were stored in variables. -/
def storeRegisters (size : Int) (params : Registers) (register : Nat) :
    List Int → Memory → Memory
  | [], memory => memory
  | place :: rest, memory =>
    storeRegisters size params (register + 1) rest
      (memory.putWord size place ((params.get? register).getD 0))

/-- What is seen after the parameters of a routine were stored in their variables. -/
def enter (size : Int) (places : List Int) (v : View) : View :=
  { v with memory := storeRegisters size v.params 0 places v.memory }

/-- What is seen at the start of a round of a counted loop after which a number of rounds remain:
that number is in the accumulator, and in the index variable if there is one. -/
def startRound (size : Int) (index : Option Int) (remaining : Nat) (v : View) : View :=
  { v with
    acc := remaining
    memory :=
      match index with
      | none => v.memory
      | some place => v.memory.putWord size place remaining }

end View

/-- The head of a structure: its expression, and the instruction that may leave it. -/
def Segment.heading (size : Int) (position : Nat) (e : Expression) (v : View) : List Segment :=
  [⟨position, e.code.length, v⟩, ⟨position + e.code.length, 1, v.evaluate size e⟩]

/-- Something to be carried out. -/
inductive Work
  /-- A text whose code begins at a position. -/
  | text (pos : Nat) (n : Nest)
  /-- A number of rounds of a counted loop, each of which begins at a position. -/
  | rounds (pos : Nat) (index : Option Int) (body : Nest) (remaining : Nat)
  /-- A routine whose code begins at a position. -/
  | routine (pos : Nat) (r : Routine)

/-- Something is carried out: what is seen before it, the segments in order, what is seen after it,
and how it is left. -/
inductive Runs (L : Library) : Work → View → List Segment → View → Exit → Prop
  | nil {pos : Nat} {v : View} : Runs L (.text pos .nil) v [] v .through
  | ret {pos : Nat} {rest : Nest} {v : View} :
      Runs L (.text pos (.step .ret rest)) v [⟨pos, 1, v⟩] v .returned
  | eval {pos : Nat} {e : Expression} {rest : Nest} {v w : View} {segs : List Segment} {exit : Exit}
      (after : Runs L (.text (pos + e.code.length) rest) (v.evaluate L.wordSize e) segs w exit) :
      Runs L (.text pos (.step (.eval e) rest)) v (⟨pos, e.code.length, v⟩ :: segs) w exit
  /-- A call copies its arguments and carries out the routine; then the text goes on. -/
  | call {pos q : Nat} {r : Routine} {name : String} {declared : Int} {args : List Operand}
      {rest : Nest} {v u w : View} {segs segs' : List Segment} {exit : Exit}
      (callee : Placed L.routines q r)
      (called : Runs L (.routine q r) (v.pass L.wordSize args) segs u .returned)
      (after : Runs L (.text (pos + (args.length + 1)) rest) u segs' w exit) :
      Runs L (.text pos (.step (.call name (codeAddress L.base q) declared args) rest)) v
        (⟨pos, args.length, v⟩ :: ⟨pos + args.length, 1, v.pass L.wordSize args⟩ ::
          segs ++ segs') w exit
  /-- The text of a conditional structure is passed over when its relation fails. -/
  | ifFails {pos : Nat} {e : Expression} {r : Relation} {body rest : Nest} {v w : View}
      {segs : List Segment} {exit : Exit}
      (fails : r.holds (v.evaluate L.wordSize e).acc = false)
      (after : Runs L (.text (pos + ((Opening.ifBlock e r).enterSize + body.size +
        (Opening.ifBlock e r).backSize)) rest) (v.evaluate L.wordSize e) segs w exit) :
      Runs L (.text pos (.block (.ifBlock e r) body rest)) v
        (Segment.heading L.wordSize pos e v ++ segs) w exit
  | ifHolds {pos : Nat} {e : Expression} {r : Relation} {body rest : Nest} {v u w : View}
      {segs segs' : List Segment} {exit : Exit}
      (holds : r.holds (v.evaluate L.wordSize e).acc = true)
      (inside : Runs L (.text (pos + (Opening.ifBlock e r).enterSize) body)
        (v.evaluate L.wordSize e) segs u .through)
      (after : Runs L (.text (pos + ((Opening.ifBlock e r).enterSize + body.size +
        (Opening.ifBlock e r).backSize)) rest) u segs' w exit) :
      Runs L (.text pos (.block (.ifBlock e r) body rest)) v
        (Segment.heading L.wordSize pos e v ++ segs ++ segs') w exit
  | ifReturns {pos : Nat} {e : Expression} {r : Relation} {body rest : Nest} {v w : View}
      {segs : List Segment}
      (holds : r.holds (v.evaluate L.wordSize e).acc = true)
      (inside : Runs L (.text (pos + (Opening.ifBlock e r).enterSize) body)
        (v.evaluate L.wordSize e) segs w .returned) :
      Runs L (.text pos (.block (.ifBlock e r) body rest)) v
        (Segment.heading L.wordSize pos e v ++ segs) w .returned
  /-- A loop under a relation is left as soon as its relation fails. -/
  | whileFails {pos : Nat} {e : Expression} {r : Relation} {body rest : Nest} {v w : View}
      {segs : List Segment} {exit : Exit}
      (fails : r.holds (v.evaluate L.wordSize e).acc = false)
      (after : Runs L (.text (pos + ((Opening.whileLoop e r).enterSize + body.size +
        (Opening.whileLoop e r).backSize)) rest) (v.evaluate L.wordSize e) segs w exit) :
      Runs L (.text pos (.block (.whileLoop e r) body rest)) v
        (Segment.heading L.wordSize pos e v ++ segs) w exit
  /-- As long as the relation holds, the text is carried out and the expression evaluated anew. -/
  | whileHolds {pos : Nat} {e : Expression} {r : Relation} {body rest : Nest} {v u w : View}
      {segs segs' : List Segment} {exit : Exit}
      (holds : r.holds (v.evaluate L.wordSize e).acc = true)
      (inside : Runs L (.text (pos + (Opening.whileLoop e r).enterSize) body)
        (v.evaluate L.wordSize e) segs u .through)
      (again : Runs L (.text pos (.block (.whileLoop e r) body rest)) u segs' w exit) :
      Runs L (.text pos (.block (.whileLoop e r) body rest)) v
        (Segment.heading L.wordSize pos e v ++ segs ++
          ⟨pos + ((Opening.whileLoop e r).enterSize + body.size), 1, u⟩ :: segs') w exit
  | whileReturns {pos : Nat} {e : Expression} {r : Relation} {body rest : Nest} {v w : View}
      {segs : List Segment}
      (holds : r.holds (v.evaluate L.wordSize e).acc = true)
      (inside : Runs L (.text (pos + (Opening.whileLoop e r).enterSize) body)
        (v.evaluate L.wordSize e) segs w .returned) :
      Runs L (.text pos (.block (.whileLoop e r) body rest)) v
        (Segment.heading L.wordSize pos e v ++ segs) w .returned
  /-- A counted loop has as many rounds as its expression says, and none for a negative number. -/
  | forEnds {pos : Nat} {count : Expression} {index : Option Int} {body rest : Nest} {v u w : View}
      {segs segs' : List Segment} {exit : Exit}
      (inside : Runs L (.rounds (pos + (count.code.length + 1)) index body
        (v.evaluate L.wordSize count).acc.toNat) (v.evaluate L.wordSize count) segs u .through)
      (after : Runs L (.text (pos + ((Opening.forLoop count index).enterSize + body.size +
        (Opening.forLoop count index).backSize)) rest) u segs' w exit) :
      Runs L (.text pos (.block (.forLoop count index) body rest)) v
        (Segment.heading L.wordSize pos count v ++ segs ++ segs') w exit
  | forReturns {pos : Nat} {count : Expression} {index : Option Int} {body rest : Nest} {v w : View}
      {segs : List Segment}
      (inside : Runs L (.rounds (pos + (count.code.length + 1)) index body
        (v.evaluate L.wordSize count).acc.toNat) (v.evaluate L.wordSize count) segs w .returned) :
      Runs L (.text pos (.block (.forLoop count index) body rest)) v
        (Segment.heading L.wordSize pos count v ++ segs) w .returned
  | noRound {pos : Nat} {index : Option Int} {body : Nest} {v : View} :
      Runs L (.rounds pos index body 0) v [] v .through
  /-- A round begins with the number of the rounds that remain after it. -/
  | round {pos : Nat} {index : Option Int} {body : Nest} {remaining : Nat} {v u w : View}
      {segs segs' : List Segment} {exit : Exit}
      (inside : Runs L (.text (pos + (index.toList.length + 1)) body)
        (v.startRound L.wordSize index remaining) segs u .through)
      (later : Runs L (.rounds pos index body remaining) u segs' w exit) :
      Runs L (.rounds pos index body (remaining + 1)) v
        (⟨pos, 1, v⟩ :: ⟨pos + 1, index.toList.length, { v with acc := remaining }⟩ ::
          segs ++ ⟨pos + (index.toList.length + 1 + body.size), 1, u⟩ :: segs') w exit
  | roundReturns {pos : Nat} {index : Option Int} {body : Nest} {remaining : Nat} {v w : View}
      {segs : List Segment}
      (inside : Runs L (.text (pos + (index.toList.length + 1)) body)
        (v.startRound L.wordSize index remaining) segs w .returned) :
      Runs L (.rounds pos index body (remaining + 1)) v
        (⟨pos, 1, v⟩ :: ⟨pos + 1, index.toList.length, { v with acc := remaining }⟩ :: segs)
        w .returned
  /-- A routine stores its parameters and carries out its text, up to a return or to its end. -/
  | routine {q : Nat} {r : Routine} {v w : View} {segs : List Segment} {exit : Exit}
      (body : Runs L (.text (q + r.places.length) r.body) (v.enter L.wordSize r.places) segs w
        exit) :
      Runs L (.routine q r) v (⟨q, r.places.length, v⟩ :: segs) w .returned

/-- No two routines of the library have the same entry. -/
def Library.Distinct (L : Library) : Prop :=
  ∀ ⦃q q' : Nat⦄ ⦃r r' : Routine⦄, Placed L.routines q r → Placed L.routines q' r' →
    codeAddress L.base q = codeAddress L.base q' → q = q' ∧ r = r'

/-- Every call statement is of a routine that has the name and the number of parameters it says. -/
def Library.CallsByName (L : Library) : Prop :=
  ∀ r ∈ L.routines, ∀ name entry declared args,
    Statement.call name entry declared args ∈ r.body.statements →
    ∃ q callee, Placed L.routines q callee ∧ entry = codeAddress L.base q ∧
      normalName callee.name = normalName name ∧ declared = callee.places.length

/-- Nothing but this may come of something that is carried out. -/
def Library.Decides (L : Library) (work : Work) (v : View) (segs : List Segment) (w : View)
    (exit : Exit) : Prop :=
  ∀ ⦃segs' : List Segment⦄ ⦃w' : View⦄ ⦃exit' : Exit⦄, Runs L work v segs' w' exit' →
    segs = segs' ∧ w = w' ∧ exit = exit'

section Deciding

variable {L : Library} {pos : Nat} {e : Expression} {r : Relation} {index : Option Int}
  {body rest : Nest} {remaining : Nat} {v u w : View} {segs segs' : List Segment} {exit : Exit}

theorem decides_call (distinct : L.Distinct) {q : Nat} {r : Routine} {name : String}
    {declared : Int} {args : List Operand} (callee : Placed L.routines q r)
    (called : L.Decides (.routine q r) (v.pass L.wordSize args) segs u .returned)
    (after : L.Decides (.text (pos + (args.length + 1)) rest) u segs' w exit) :
    L.Decides (.text pos (.step (.call name (codeAddress L.base q) declared args) rest)) v
      (⟨pos, args.length, v⟩ :: ⟨pos + args.length, 1, v.pass L.wordSize args⟩ ::
        segs ++ segs') w exit := by
  intro _ _ _ second
  -- The address is all that the statement knows of the routine.
  generalize entry : codeAddress L.base _ = address at second
  cases second with
  | call callee' called' after' =>
    obtain ⟨rfl, rfl⟩ := distinct callee callee' entry
    obtain ⟨rfl, rfl, -⟩ := called called'
    obtain ⟨rfl, rfl, rfl⟩ := after after'
    exact ⟨rfl, rfl, rfl⟩

/-- Something is carried out in two parts: an inner one behind some segments, and an outer one if
that comes to its end. -/
def Library.Splits (L : Library) (work : Work) (v : View) (front : List Segment) (inner : Work)
    (v' : View) (outer : Work) (join : View → List Segment → List Segment) : Prop :=
  ∀ ⦃segs : List Segment⦄ ⦃w : View⦄ ⦃exit : Exit⦄, Runs L work v segs w exit →
    (∃ segs₁ u segs₂, Runs L inner v' segs₁ u .through ∧ Runs L outer u segs₂ w exit ∧
      segs = front ++ segs₁ ++ join u segs₂) ∨
    ∃ segs₁, Runs L inner v' segs₁ w .returned ∧ segs = front ++ segs₁ ∧ exit = .returned

section Parts

variable {work inner outer : Work} {v' : View} {front : List Segment}
  {join : View → List Segment → List Segment}
  (splits : L.Splits work v front inner v' outer join)
include splits

theorem Library.Splits.through (inside : L.Decides inner v' segs u .through)
    (after : L.Decides outer u segs' w exit) :
    L.Decides work v (front ++ segs ++ join u segs') w exit := by
  intro _ _ _ second
  obtain ⟨_, _, _, inside', after', rfl⟩ | ⟨_, inside', -, -⟩ := splits second
  · obtain ⟨rfl, rfl, -⟩ := inside inside'
    obtain ⟨rfl, rfl, rfl⟩ := after after'
    exact ⟨rfl, rfl, rfl⟩
  · exact absurd (inside inside').2.2 (by simp)

theorem Library.Splits.returned (inside : L.Decides inner v' segs w .returned) :
    L.Decides work v (front ++ segs) w .returned := by
  intro _ _ _ second
  obtain ⟨_, _, _, inside', -, -⟩ | ⟨_, inside', rfl, rfl⟩ := splits second
  · exact absurd (inside inside').2.2 (by simp)
  · obtain ⟨rfl, rfl, -⟩ := inside inside'
    exact ⟨rfl, rfl, rfl⟩

end Parts

theorem splits_if (holds : r.holds (v.evaluate L.wordSize e).acc = true) :
    L.Splits (.text pos (.block (.ifBlock e r) body rest)) v (Segment.heading L.wordSize pos e v)
      (.text (pos + (Opening.ifBlock e r).enterSize) body) (v.evaluate L.wordSize e)
      (.text (pos + ((Opening.ifBlock e r).enterSize + body.size +
        (Opening.ifBlock e r).backSize)) rest) fun _ segs => segs := by
  intro _ _ _ runs
  cases runs with
  | ifFails fails => simp [holds] at fails
  | ifHolds _ inside after => exact .inl ⟨_, _, _, inside, after, rfl⟩
  | ifReturns _ inside => exact .inr ⟨_, inside, rfl, rfl⟩

theorem splits_while (holds : r.holds (v.evaluate L.wordSize e).acc = true) :
    L.Splits (.text pos (.block (.whileLoop e r) body rest)) v
      (Segment.heading L.wordSize pos e v)
      (.text (pos + (Opening.whileLoop e r).enterSize) body) (v.evaluate L.wordSize e)
      (.text pos (.block (.whileLoop e r) body rest))
      fun u segs => ⟨pos + ((Opening.whileLoop e r).enterSize + body.size), 1, u⟩ :: segs := by
  intro _ _ _ runs
  cases runs with
  | whileFails fails => simp [holds] at fails
  | whileHolds _ inside again => exact .inl ⟨_, _, _, inside, again, rfl⟩
  | whileReturns _ inside => exact .inr ⟨_, inside, rfl, rfl⟩

theorem splits_for : L.Splits (.text pos (.block (.forLoop e index) body rest)) v
    (Segment.heading L.wordSize pos e v) (.rounds (pos + (e.code.length + 1)) index body
      (v.evaluate L.wordSize e).acc.toNat) (v.evaluate L.wordSize e)
    (.text (pos + ((Opening.forLoop e index).enterSize + body.size +
      (Opening.forLoop e index).backSize)) rest) fun _ segs => segs := by
  intro _ _ _ runs
  cases runs with
  | forEnds inside after => exact .inl ⟨_, _, _, inside, after, rfl⟩
  | forReturns inside => exact .inr ⟨_, inside, rfl, rfl⟩

theorem splits_round : L.Splits (.rounds pos index body (remaining + 1)) v
    [⟨pos, 1, v⟩, ⟨pos + 1, index.toList.length, { v with acc := remaining }⟩]
    (.text (pos + (index.toList.length + 1)) body) (v.startRound L.wordSize index remaining)
    (.rounds pos index body remaining)
    fun u segs => ⟨pos + (index.toList.length + 1 + body.size), 1, u⟩ :: segs := by
  intro _ _ _ runs
  cases runs with
  | round inside later => exact .inl ⟨_, _, _, inside, later, rfl⟩
  | roundReturns inside => exact .inr ⟨_, inside, rfl, rfl⟩

end Deciding

/-- What is seen at first decides everything: one order of segments is prescribed and no other. -/
theorem Runs.deterministic {L : Library} (distinct : L.Distinct) {work : Work} {v w : View}
    {segs : List Segment} {exit : Exit} (first : Runs L work v segs w exit) :
    L.Decides work v segs w exit := by
  induction first with
  | call callee _ _ called after => exact decides_call distinct callee called after
  | ifHolds holds _ _ inside after => exact (splits_if holds).through inside after
  | ifReturns holds _ inside => exact (splits_if holds).returned inside
  | whileHolds holds _ _ inside again => exact (splits_while holds).through inside again
  | whileReturns holds _ inside => exact (splits_while holds).returned inside
  | forEnds _ _ inside after => exact splits_for.through inside after
  | forReturns _ inside => exact splits_for.returned inside
  | round _ _ inside later => exact splits_round.through inside later
  | roundReturns _ inside => exact splits_round.returned inside
  | nil | ret | noRound =>
    intro _ _ _ second
    cases second
    exact ⟨rfl, rfl, rfl⟩
  | eval _ ih =>
    intro _ _ _ second
    cases second with
    | eval after =>
      obtain ⟨rfl, rfl, rfl⟩ := ih after
      exact ⟨rfl, rfl, rfl⟩
  | ifFails fails _ ih =>
    intro _ _ _ second
    cases second with
    | ifFails _ after =>
      obtain ⟨rfl, rfl, rfl⟩ := ih after
      exact ⟨rfl, rfl, rfl⟩
    | ifHolds holds | ifReturns holds => simp [fails] at holds
  | whileFails fails _ ih =>
    intro _ _ _ second
    cases second with
    | whileFails _ after =>
      obtain ⟨rfl, rfl, rfl⟩ := ih after
      exact ⟨rfl, rfl, rfl⟩
    | whileHolds holds | whileReturns holds => simp [fails] at holds
  | routine _ ih =>
    intro _ _ _ second
    cases second with
    | routine body =>
      obtain ⟨rfl, rfl, -⟩ := ih body
      exact ⟨rfl, rfl, rfl⟩

end HighAsm
