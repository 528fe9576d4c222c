import HighAsm.Proofs.KeyOrder
import HighAsm.Proofs.ProcedureNames
import HighAsm.Proofs.Scoping

/-!
# Variables and procedures as two namespaces

One table holds variables and procedures, and tells them apart by the parenthesis at the end of a
procedure's key. As long as no name has a parenthesis of its own, this is the same as a map of
variables and a map of procedures that know nothing of each other (`Namespaces`): whatever is asked
of both, one request after the other, they give the same answers.
-/

namespace HighAsm

open List

/-! ## Requests and answers -/

/-- A text of ASCII characters without an opening parenthesis. -/
def Text.IsPlain (t : Text) : Prop := ∀ b ∈ t, b < 0x80 ∧ b ≠ 40

instance (t : Text) : Decidable t.IsPlain := inferInstanceAs (Decidable (∀ b ∈ t, _))

/-- What is asked of a table of symbols. -/
inductive Inquiry
  | addVariable (name : Text) (address : Int)
  | addProcedure (name : Text) (entry params paramBase : Int)
  | findVariable (name : Text)
  | findProcedure (name : Text)
  | dropLocals
  | closeModule
  | keepShared
  | symbols
  | shared

/-- The names in an inquiry are plain. -/
def Inquiry.IsPlain : Inquiry → Prop
  | addVariable name _ | addProcedure name _ _ _ | findVariable name | findProcedure name =>
    name.IsPlain
  | dropLocals | closeModule | keepShared | symbols | shared => True

instance : DecidablePred Inquiry.IsPlain
  | .addVariable name _ | .addProcedure name _ _ _ | .findVariable name | .findProcedure name =>
    inferInstanceAs (Decidable name.IsPlain)
  | .dropLocals | .closeModule | .keepShared | .symbols | .shared =>
    inferInstanceAs (Decidable True)

/-- What is answered. -/
inductive Reply
  | done
  | rejected (fault : Fault)
  | found (symbol? : Option Symbol)
  | listed (symbols : List Symbol)
  deriving DecidableEq

/-- Replies to inquiries that are made one after the other, and what is left behind them. -/
def replies {σ : Type} (reply : σ → Inquiry → Reply × σ) (state : σ) :
    List Inquiry → List Reply × σ
  | [] => ([], state)
  | inquiry :: rest =>
    let (first, next) := reply state inquiry
    let (others, last) := replies reply next rest
    (first :: others, last)

/-- Enters a symbol in a table, which stays as it is where that cannot be done. -/
def SymbolTable.enter (t : SymbolTable) (s : Symbol) : Reply × SymbolTable :=
  match t.add s with
  | .ok t' => (.done, t')
  | .error fault => (.rejected fault, t)

theorem SymbolTable.enter_of_taken {t : SymbolTable} {s found : Symbol}
    (taken : t.entry? s.key = some found) : t.enter s = (.rejected (.duplicate s.key), t) := by
  rw [enter, add, taken]

/-- The reply of a table. -/
def SymbolTable.reply (t : SymbolTable) : Inquiry → Reply × SymbolTable
  | .addVariable name address => t.enter (Symbol.ofVariable name address)
  | .addProcedure name entry params paramBase =>
    t.enter (Symbol.ofProcedure name entry params paramBase)
  | .findVariable name => (.found (t.variableOf? name), t)
  | .findProcedure name => (.found (t.procedureOf? name), t)
  | .dropLocals => (.done, t.dropLocals)
  | .closeModule => (.done, t.closeModule)
  | .keepShared => (.done, t.keepShared)
  | .symbols => (.listed t.symbols, t)
  | .shared => (.listed t.shared, t)

/-! ## Two maps -/

/-- What a procedure's name stands for. -/
structure ProcedureEntry where
  entry : Int
  params : Int
  paramBase : Int

/-- A map of variables and a map of procedures, both by the normal form of names. -/
structure Namespaces where
  result : String
  data : Std.TreeMap String Int := ∅
  code : Std.TreeMap String ProcedureEntry := ∅

namespace Namespaces

variable {n : Namespaces} {name : String} {s : Symbol}

/-- Two empty maps. -/
def empty (resultName : Text) : Namespaces := { result := normalName resultName }

/-- A variable as a symbol. -/
def variableSymbol (name : String) (address : Int) : Symbol := ⟨name, .data address⟩

/-- A procedure as a symbol. -/
def procedureSymbol (name : String) (p : ProcedureEntry) : Symbol :=
  ⟨name, .code p.entry p.params p.paramBase⟩

/-- What both maps hold. -/
def entries (n : Namespaces) : List Symbol :=
  n.data.toList.map (fun (name, address) => variableSymbol name address) ++
    n.code.toList.map fun (name, p) => procedureSymbol name p

/-- What both maps hold, in the order of keys. -/
def symbols (n : Namespaces) : List Symbol :=
  n.entries.mergeSort fun a b => !decide (b.key < a.key)

/-- The maps with the variables and the procedures whose names pass a test. -/
def prune (n : Namespaces) (inData inCode : String → Bool) : Namespaces :=
  { n with
    data := n.data.filter fun name _ => inData name
    code := n.code.filter fun name _ => inCode name }

/-- The maps without the variables that are not global. -/
def dropLocals (n : Namespaces) : Namespaces := n.prune isGlobalName fun _ => true

/-- The maps with no variable but the result. -/
def closeModule (n : Namespaces) : Namespaces := n.prune (· == n.result) fun _ => true

/-- The maps with no variable but the result, and with no procedure that is not global. -/
def keepShared (n : Namespaces) : Namespaces := n.prune (· == n.result) isGlobalName

/-- The maps with one more variable. -/
def insertVariable (n : Namespaces) (name : String) (address : Int) : Namespaces :=
  { n with data := n.data.insert name address }

/-- The maps with one more procedure. -/
def insertProcedure (n : Namespaces) (name : String) (p : ProcedureEntry) : Namespaces :=
  { n with code := n.code.insert name p }

/-- The reply of two maps. -/
def reply (n : Namespaces) : Inquiry → Reply × Namespaces
  | .addVariable name address =>
    if normalName name ∈ n.data then (.rejected (.duplicate (normalName name)), n)
    else (.done, n.insertVariable (normalName name) address)
  | .addProcedure name entry params paramBase =>
    if normalName name ∈ n.code then (.rejected (.duplicate (normalName name ++ "(")), n)
    else (.done, n.insertProcedure (normalName name) ⟨entry, params, paramBase⟩)
  | .findVariable name =>
    (.found ((n.data[normalName name]?).map (variableSymbol (normalName name))), n)
  | .findProcedure name =>
    (.found ((n.code[normalName name]?).map (procedureSymbol (normalName name))), n)
  | .dropLocals => (.done, n.dropLocals)
  | .closeModule => (.done, n.closeModule)
  | .keepShared => (.done, n.keepShared)
  | .symbols => (.listed n.symbols, n)
  | .shared => (.listed n.keepShared.symbols, n)

/-! ## What the maps hold -/

theorem symbol_cases (s : Symbol) :
    (∃ name address, s = variableSymbol name address) ∨ ∃ name p, s = procedureSymbol name p := by
  obtain ⟨name, address | ⟨entry, params, paramBase⟩⟩ := s
  · exact .inl ⟨name, address, rfl⟩
  · exact .inr ⟨name, ⟨entry, params, paramBase⟩, rfl⟩

theorem mem_entries_variable {address : Int} :
    variableSymbol name address ∈ n.entries ↔ n.data[name]? = some address := by
  simp [entries, variableSymbol, procedureSymbol, Std.TreeMap.mem_toList_iff_getElem?_eq_some]

theorem mem_entries_procedure {p : ProcedureEntry} :
    procedureSymbol name p ∈ n.entries ↔ n.code[name]? = some p := by
  obtain ⟨entry, params, paramBase⟩ := p
  simp only [entries, mem_append, mem_map, Prod.exists,
    Std.TreeMap.mem_toList_iff_getElem?_eq_some]
  constructor
  · rintro (⟨_, _, -, same⟩ | ⟨_, ⟨_, _, _⟩, known, same⟩)
    · exact absurd (Symbol.mk.inj same).2 (by simp)
    · obtain ⟨rfl, code⟩ := Symbol.mk.inj same
      obtain ⟨rfl, rfl, rfl⟩ := Meaning.code.inj code
      exact known
  · intro known
    exact .inr ⟨name, _, known, rfl⟩

theorem mem_insertVariable {address : Int} (free : n.data[name]? = none) :
    s ∈ (n.insertVariable name address).entries ↔
      s ∈ n.entries ∨ s = variableSymbol name address := by
  obtain ⟨other, place, rfl⟩ | ⟨other, p, rfl⟩ := symbol_cases s
  · rw [mem_entries_variable, mem_entries_variable, insertVariable, Std.TreeMap.getElem?_insert]
    by_cases same : name = other
    · subst same
      simp [free, variableSymbol, eq_comm]
    · simp [same, variableSymbol, Ne.symm same]
  · rw [mem_entries_procedure, mem_entries_procedure, insertVariable]
    simp [variableSymbol, procedureSymbol]

theorem mem_insertProcedure {p : ProcedureEntry} (free : n.code[name]? = none) :
    s ∈ (n.insertProcedure name p).entries ↔ s ∈ n.entries ∨ s = procedureSymbol name p := by
  obtain ⟨other, place, rfl⟩ | ⟨other, q, rfl⟩ := symbol_cases s
  · rw [mem_entries_variable, mem_entries_variable, insertProcedure]
    simp [variableSymbol, procedureSymbol]
  · rw [mem_entries_procedure, mem_entries_procedure, insertProcedure, Std.TreeMap.getElem?_insert]
    by_cases same : name = other
    · subst same
      obtain ⟨_, _, _⟩ := p
      obtain ⟨_, _, _⟩ := q
      simp [free, procedureSymbol, eq_comm]
    · simp [same, procedureSymbol, Ne.symm same]

theorem mem_prune {inData inCode : String → Bool} :
    s ∈ (n.prune inData inCode).entries ↔
      s ∈ n.entries ∧ (if s.isProcedure then inCode s.name else inData s.name) = true := by
  obtain ⟨name, address, rfl⟩ | ⟨name, p, rfl⟩ := symbol_cases s
  · rw [mem_entries_variable, mem_entries_variable, prune, Std.TreeMap.getElem?_filter',
      Option.filter_eq_some_iff]
    rfl
  · rw [mem_entries_procedure, mem_entries_procedure, prune, Std.TreeMap.getElem?_filter',
      Option.filter_eq_some_iff]
    rfl

theorem entries_nodup (n : Namespaces) : n.entries.Nodup := by
  -- Within a map names differ, and no variable is a procedure.
  have apart {β : Type} (m : Std.TreeMap String β) (symbol : String × β → Symbol)
      (named : ∀ entry, (symbol entry).name = entry.1) : (m.toList.map symbol).Nodup := by
    refine pairwise_map.mpr (m.distinct_keys_toList.imp fun {a b} differ same => differ ?_)
    rw [Std.compare_eq_iff_eq, ← named a, ← named b, same]
  refine nodup_append.mpr ⟨apart _ _ fun _ => rfl, apart _ _ fun _ => rfl, ?_⟩
  intro s inData s' inCode same
  obtain ⟨⟨name, address⟩, -, rfl⟩ := mem_map.mp inData
  obtain ⟨⟨name', p⟩, -, rfl⟩ := mem_map.mp inCode
  exact absurd (Symbol.mk.inj same).2 (by simp)

end Namespaces

/-! ## A table that stands for two maps -/

/-- A plain text has a normal form without a parenthesis. -/
theorem Text.IsPlain.normalName {name : Text} (plain : name.IsPlain) :
    '(' ∉ (HighAsm.normalName name).toList := by
  have chars : ∀ c ∈ Text.chars name, ∃ n < 128, n ≠ 40 ∧ c = Char.ofNat n := by
    induction name with
    | nil => simp [Text.chars, Text.runes]
    | cons b rest ih =>
      obtain ⟨⟨ascii, other⟩, later⟩ := forall_mem_cons.mp plain
      rw [Text.chars_cons ascii]
      refine forall_mem_cons.mpr ⟨⟨b.toNat, ascii, fun same => other ?_, rfl⟩, ih later⟩
      exact UInt8.toNat_inj.mp same
  have lower : ∀ n < 128, n ≠ 40 → lowerChar (Char.ofNat n) ≠ '(' := by decide
  rw [HighAsm.normalName, String.toList_ofList, mem_map]
  rintro ⟨c, member, same⟩
  have inside : c ∈ Text.chars name := by
    unfold Text.trimList at member
    exact (dropWhile_suffix _).mem
      (mem_reverse.mp ((dropWhile_suffix _).mem (mem_reverse.mp member)))
  obtain ⟨n, small, other, rfl⟩ := chars c inside
  exact lower n small other same

/-- A table and two maps hold the same symbols, which have no parenthesis in their names. -/
structure SymbolTable.Represents (t : SymbolTable) (n : Namespaces) : Prop where
  result : t.result = n.result
  distinct : t.Distinct
  plain : ∀ s ∈ t.entries, '(' ∉ s.name.toList
  entries : ∀ s, s ∈ t.entries ↔ s ∈ n.entries

namespace SymbolTable.Represents

open Namespaces

variable {t : SymbolTable} {n : Namespaces} {name : String}

theorem empty (resultName : Text) :
    (SymbolTable.empty resultName).Represents (Namespaces.empty resultName) := by
  refine ⟨rfl, nodup_nil, by simp [SymbolTable.empty], fun s => ?_⟩
  simp [SymbolTable.empty, Namespaces.empty, Namespaces.entries]

variable (represents : t.Represents n)

include represents

/-- Under a name without a parenthesis stands the variable of that name. -/
theorem entry?_variable (plain : '(' ∉ name.toList) :
    t.entry? name = n.data[name]?.map (variableSymbol name) := by
  ext s
  rw [represents.distinct.entry?_eq_some_iff, represents.entries, Option.map_eq_some_iff]
  constructor
  · rintro ⟨member, key⟩
    obtain ⟨other, address, rfl⟩ | ⟨other, p, rfl⟩ := symbol_cases s
    · obtain rfl : other = name := key
      exact ⟨address, mem_entries_variable.mp member, rfl⟩
    · refine absurd ?_ plain
      rw [← key]
      simp [Symbol.key, Symbol.isProcedure, procedureSymbol]
  · rintro ⟨address, known, rfl⟩
    exact ⟨mem_entries_variable.mpr known, rfl⟩

/-- Under a name with a parenthesis behind it stands the procedure of that name. -/
theorem entry?_procedure (name : String) :
    t.entry? (name ++ "(") = n.code[name]?.map (procedureSymbol name) := by
  ext s
  rw [represents.distinct.entry?_eq_some_iff, Option.map_eq_some_iff]
  constructor
  · rintro ⟨member, key⟩
    obtain ⟨other, address, rfl⟩ | ⟨other, p, rfl⟩ := symbol_cases s
    · refine absurd ?_ (represents.plain _ member)
      have named : other = name ++ "(" := key
      simp [variableSymbol, named]
    · have same : other ++ "(" = name ++ "(" := key
      obtain rfl : other = name := by simpa using same
      exact ⟨p, mem_entries_procedure.mp ((represents.entries _).mp member), rfl⟩
  · rintro ⟨p, known, rfl⟩
    exact ⟨(represents.entries _).mpr (mem_entries_procedure.mpr known), rfl⟩

theorem variableOf?_eq {name : Text} (plain : name.IsPlain) :
    t.variableOf? name = n.data[normalName name]?.map (variableSymbol (normalName name)) := by
  rw [SymbolTable.variableOf?, represents.entry?_variable plain.normalName]
  cases n.data[normalName name]? <;> rfl

theorem procedureOf?_eq (name : Text) :
    t.procedureOf? name = n.code[normalName name]?.map (procedureSymbol (normalName name)) := by
  rw [SymbolTable.procedureOf?, represents.entry?_procedure]
  cases n.code[normalName name]? <;> rfl

theorem pruned {keep : Symbol → Bool} {inData inCode : String → Bool}
    (same : ∀ s, keep s = if s.isProcedure then inCode s.name else inData s.name) :
    Represents { t with entries := t.entries.filter keep } (n.prune inData inCode) where
  result := represents.result
  distinct := represents.distinct.narrowed filter_sublist
  plain s member := represents.plain s (mem_filter.mp member).1
  entries s := by rw [mem_filter, represents.entries, mem_prune, same]

theorem dropLocals : t.dropLocals.Represents n.dropLocals := by
  refine represents.pruned fun s => ?_
  rw [Symbol.isGlobal, Symbol.isExported]
  cases s.isProcedure <;> rfl

theorem closeModule : t.closeModule.Represents n.closeModule := by
  refine represents.pruned fun s => ?_
  rw [Symbol.key, represents.result]
  cases s.isProcedure <;> rfl

theorem keepShared : t.keepShared.Represents n.keepShared := by
  refine represents.pruned fun s => ?_
  rw [isShared, represents.result, Symbol.isExported]

theorem symbols_eq : t.symbols = n.symbols := by
  have perm : t.entries.Perm n.entries :=
    (perm_ext_iff_of_nodup (List.Nodup.of_map _ represents.distinct) n.entries_nodup).mpr
      represents.entries
  have sorted := mergeSort_perm t.entries fun a b => !decide (b.key < a.key)
  refine (orderedBy_mergeSort Symbol.key _).eq_of_perm (orderedBy_mergeSort Symbol.key _)
    (sorted.trans (perm.trans (mergeSort_perm _ _).symm)) ?_
  exact (sorted.map _).nodup_iff.mpr represents.distinct

theorem entered {s : Symbol} (plain : '(' ∉ s.name.toList)
    (free : t.entry? s.key = none) {n' : Namespaces} (result : n'.result = n.result)
    (more : ∀ s', s' ∈ n'.entries ↔ s' ∈ n.entries ∨ s' = s) :
    (t.enter s).1 = .done ∧ (t.enter s).2.Represents n' := by
  have ok : t.add s = .ok { t with entries := t.entries ++ [s] } := by rw [SymbolTable.add, free]
  rw [enter, ok]
  refine ⟨rfl, represents.result.trans result.symm, represents.distinct.add ok, ?_, fun s' => ?_⟩
  · exact forall_mem_append.mpr ⟨represents.plain, forall_mem_singleton.mpr plain⟩
  · rw [mem_append, mem_singleton, represents.entries, more]

theorem addVariable {name : Text} (plain : name.IsPlain) (address : Int) :
    (t.reply (.addVariable name address)).1 = (n.reply (.addVariable name address)).1 ∧
      (t.reply (.addVariable name address)).2.Represents
        (n.reply (.addVariable name address)).2 := by
  have entry := represents.entry?_variable plain.normalName
  have inside : normalName name ∈ n.data ↔ _ := Std.TreeMap.mem_iff_isSome_getElem?
  rw [SymbolTable.reply, Namespaces.reply]
  cases known : n.data[normalName name]? with
  | some other =>
    rw [known] at entry inside
    rw [enter_of_taken (s := Symbol.ofVariable name address) entry, if_pos (inside.mpr rfl)]
    exact ⟨rfl, represents⟩
  | none =>
    rw [known] at entry inside
    rw [if_neg fun member => absurd (inside.mp member) (by decide)]
    exact represents.entered (s := Symbol.ofVariable name address) plain.normalName entry rfl
      fun s => mem_insertVariable known

theorem addProcedure {name : Text} (plain : name.IsPlain) (entry params paramBase : Int) :
    (t.reply (.addProcedure name entry params paramBase)).1 =
        (n.reply (.addProcedure name entry params paramBase)).1 ∧
      (t.reply (.addProcedure name entry params paramBase)).2.Represents
        (n.reply (.addProcedure name entry params paramBase)).2 := by
  have found := represents.entry?_procedure (normalName name)
  have inside : normalName name ∈ n.code ↔ _ := Std.TreeMap.mem_iff_isSome_getElem?
  rw [SymbolTable.reply, Namespaces.reply]
  cases known : n.code[normalName name]? with
  | some other =>
    rw [known] at found inside
    rw [enter_of_taken (s := Symbol.ofProcedure name entry params paramBase) found,
      if_pos (inside.mpr rfl)]
    exact ⟨rfl, represents⟩
  | none =>
    rw [known] at found inside
    rw [if_neg fun member => absurd (inside.mp member) (by decide)]
    exact represents.entered (s := Symbol.ofProcedure name entry params paramBase)
      plain.normalName found rfl fun s => mem_insertProcedure known

end SymbolTable.Represents

/-! ## Listings of a table -/

namespace SymbolTable

variable {t : SymbolTable}

theorem Distinct.increasing (distinct : t.Distinct) :
    t.symbols.Pairwise fun a b => a.key < b.key := by
  have sorted := mergeSort_perm t.entries fun a b => !decide (b.key < a.key)
  exact (orderedBy_mergeSort Symbol.key _).increasing ((sorted.map _).nodup_iff.mpr distinct)

/-- What other modules see is all that is left when the rest is taken away. -/
theorem Distinct.symbols_keepShared (distinct : t.Distinct) : t.keepShared.symbols = t.shared := by
  have sorted := mergeSort_perm t.entries fun a b => !decide (b.key < a.key)
  have perm : t.keepShared.symbols.Perm t.shared :=
    (mergeSort_perm _ _).trans (sorted.filter t.isShared).symm
  have narrowed : t.keepShared.Distinct := distinct.narrowed filter_sublist
  refine (orderedBy_mergeSort Symbol.key _).eq_of_perm ?_ perm ?_
  · exact (orderedBy_mergeSort Symbol.key t.entries).filter _
  · exact ((mergeSort_perm _ _).map _).nodup_iff.mpr narrowed

/-- Closing a module takes away nothing that other modules see. -/
theorem Distinct.shared_closeModule (distinct : t.Distinct) : t.closeModule.shared = t.shared := by
  have narrowed : t.closeModule.Distinct := distinct.narrowed filter_sublist
  have same : t.closeModule.keepShared = t.keepShared := by
    rw [keepShared, keepShared, closeModule]
    simp only [mk.injEq, true_and, filter_filter]
    refine filter_congr fun s _ => ?_
    rw [isShared, isShared, Symbol.key]
    cases s.isProcedure <;> simp
  rw [← narrowed.symbols_keepShared, same, distinct.symbols_keepShared]

/-- An inquiry is answered alike, and leaves a table that stands for the maps. -/
theorem Represents.reply {n : Namespaces} (represents : t.Represents n) {inquiry : Inquiry}
    (plain : inquiry.IsPlain) :
    (t.reply inquiry).1 = (n.reply inquiry).1 ∧
      (t.reply inquiry).2.Represents (n.reply inquiry).2 := by
  cases inquiry with
  | addVariable name address => exact represents.addVariable plain address
  | addProcedure name entry params paramBase =>
    exact represents.addProcedure plain entry params paramBase
  | findVariable name => exact ⟨congrArg Reply.found (represents.variableOf?_eq plain), represents⟩
  | findProcedure name => exact ⟨congrArg Reply.found (represents.procedureOf?_eq name), represents⟩
  | dropLocals => exact ⟨rfl, represents.dropLocals⟩
  | closeModule => exact ⟨rfl, represents.closeModule⟩
  | keepShared => exact ⟨rfl, represents.keepShared⟩
  | symbols => exact ⟨congrArg Reply.listed represents.symbols_eq, represents⟩
  | shared =>
    refine ⟨congrArg Reply.listed ?_, represents⟩
    rw [← represents.distinct.symbols_keepShared, represents.keepShared.symbols_eq]

theorem Represents.replies {n : Namespaces} (represents : t.Represents n)
    {inquiries : List Inquiry} (plain : ∀ inquiry ∈ inquiries, inquiry.IsPlain) :
    (HighAsm.replies SymbolTable.reply t inquiries).1 =
        (HighAsm.replies Namespaces.reply n inquiries).1 ∧
      (HighAsm.replies SymbolTable.reply t inquiries).2.Represents
        (HighAsm.replies Namespaces.reply n inquiries).2 := by
  induction inquiries generalizing t n with
  | nil => exact ⟨rfl, represents⟩
  | cons inquiry rest ih =>
    obtain ⟨here, later⟩ := forall_mem_cons.mp plain
    obtain ⟨first, next⟩ := represents.reply here
    obtain ⟨others, last⟩ := ih next later
    refine ⟨?_, last⟩
    rw [HighAsm.replies, HighAsm.replies]
    exact congrArg₂ List.cons first others

theorem reply_result (t : SymbolTable) (inquiry : Inquiry) :
    (t.reply inquiry).2.result = t.result := by
  have enter_result (s : Symbol) : (t.enter s).2.result = t.result := by
    rw [enter, add]
    cases t.entry? s.key <;> rfl
  cases inquiry with
  | addVariable | addProcedure => exact enter_result _
  | _ => rfl

theorem replies_result (t : SymbolTable) (inquiries : List Inquiry) :
    (HighAsm.replies SymbolTable.reply t inquiries).2.result = t.result := by
  induction inquiries generalizing t with
  | nil => rfl
  | cons inquiry rest ih => exact (ih _).trans (t.reply_result inquiry)

theorem mem_symbols {s : Symbol} : s ∈ t.symbols ↔ s ∈ t.entries := mem_mergeSort

/-- An inquiry is rejected for a duplicate, and changes nothing. -/
def Refuses (t : SymbolTable) (inquiry : Inquiry) : Prop :=
  ∃ fault, t.reply inquiry = (.rejected fault, t) ∧ fault.kind = .duplicateIdentifier

theorem refuses_of_rejected {inquiry : Inquiry} {fault : Fault}
    (rejected : (t.reply inquiry).1 = .rejected fault) : t.Refuses inquiry := by
  have refused {s : Symbol} (rejected : (t.enter s).1 = .rejected fault) :
      t.enter s = (.rejected (.duplicate s.key), t) := by
    cases taken : t.entry? s.key with
    | some found => exact enter_of_taken taken
    | none => simp [enter, add, taken] at rejected
  cases inquiry with
  | addVariable | addProcedure => exact ⟨_, refused rejected, rfl⟩
  | _ => simp [reply] at rejected

/-- A table answers like a map of variables and a map of procedures, whatever it was asked before.
It refuses a name exactly where the map of that kind has it, loses to each pruning what that pruning
is for, and lists what it holds in strictly increasing order of keys. -/
theorem replies_eq_namespaces (resultName : Text) (inquiries : List Inquiry)
    (plain : ∀ inquiry ∈ inquiries, inquiry.IsPlain) :
    ∃ answers t n,
      replies SymbolTable.reply (SymbolTable.empty resultName) inquiries = (answers, t) ∧
      replies Namespaces.reply (Namespaces.empty resultName) inquiries = (answers, n) ∧
      (∀ name : Text, name.IsPlain → ∀ address,
        if normalName name ∈ n.data then t.Refuses (.addVariable name address)
        else (t.reply (.addVariable name address)).1 = .done) ∧
      (∀ name : Text, name.IsPlain → ∀ entry params paramBase,
        if normalName name ∈ n.code then t.Refuses (.addProcedure name entry params paramBase)
        else (t.reply (.addProcedure name entry params paramBase)).1 = .done) ∧
      (∀ s, s ∈ t.dropLocals.entries ↔
        s ∈ t.entries ∧ (s.isProcedure = true ∨ isGlobalName s.name = true)) ∧
      (∀ s, s ∈ t.closeModule.entries ↔
        s ∈ t.entries ∧ (s.isProcedure = true ∨ s.name = normalName resultName)) ∧
      (∀ s, s ∈ t.keepShared.entries ↔
        s ∈ t.entries ∧
          if s.isProcedure then isGlobalName s.name = true else s.name = normalName resultName) ∧
      (∀ s, s ∈ t.symbols ↔ s ∈ t.entries) ∧
      t.symbols.Pairwise (fun a b => a.key < b.key) ∧
      t.shared.Pairwise (fun a b => a.key < b.key) ∧
      t.keepShared.symbols = t.shared ∧
      t.closeModule.shared = t.shared := by
  obtain ⟨same, represents⟩ := (Represents.empty resultName).replies plain
  have result := replies_result (SymbolTable.empty resultName) inquiries
  revert same represents result
  generalize replies SymbolTable.reply (SymbolTable.empty resultName) inquiries = reached
  generalize replies Namespaces.reply (Namespaces.empty resultName) inquiries = maps
  obtain ⟨answers, t⟩ := reached
  obtain ⟨answers', n⟩ := maps
  rintro rfl represents (result : t.result = normalName resultName)
  have distinct := represents.distinct
  refine ⟨answers, t, n, rfl, rfl, ?_, ?_, fun s => ?_, fun s => ?_, fun s => ?_,
    fun s => mem_symbols, distinct.increasing, distinct.increasing.sublist List.filter_sublist,
    distinct.symbols_keepShared, distinct.shared_closeModule⟩
  · intro name plain address
    have first := (represents.addVariable plain address).1
    rw [Namespaces.reply] at first
    split_ifs at first ⊢
    · exact refuses_of_rejected first
    · exact first
  · intro name plain entry params paramBase
    have first := (represents.addProcedure plain entry params paramBase).1
    rw [Namespaces.reply] at first
    split_ifs at first ⊢
    · exact refuses_of_rejected first
    · exact first
  · simp [dropLocals, Symbol.isGlobal, Symbol.isExported]
  · rw [closeModule, List.mem_filter, result, Symbol.key]
    cases s.isProcedure <;> simp
  · rw [keepShared, List.mem_filter, isShared, result, Symbol.isExported]
    cases s.isProcedure <;> simp

/-- A variable and a procedure of one name, in two spellings, beside a local variable. -/
def sharedName : List Inquiry :=
  [.addVariable " F" 8192, .addProcedure "f" 4096 1 8193, .addVariable "x" 8194,
    .addVariable "f\t" 8195, .addProcedure "F" 4100 0 0, .findVariable "F", .closeModule,
    .findVariable "f", .findProcedure "f", .addVariable "$return" 8196, .keepShared, .symbols]

theorem replies_eq_namespaces_sharedName :
    (replies SymbolTable.reply (SymbolTable.empty "$return") sharedName).1 =
        [.done, .done, .done, .rejected (.duplicate "f"), .rejected (.duplicate "f("),
          .found (some ⟨"f", .data 8192⟩), .done, .found none,
          .found (some ⟨"f", .code 4096 1 8193⟩), .done, .done, .listed [⟨"$return", .data 8196⟩]] ∧
      (replies Namespaces.reply (Namespaces.empty "$return") sharedName).1 =
        (replies SymbolTable.reply (SymbolTable.empty "$return") sharedName).1 := by
  obtain ⟨answers, t, n, ofTable, ofMaps, -⟩ :=
    replies_eq_namespaces "$return" sharedName (by decide +kernel)
  refine ⟨by decide +kernel, ?_⟩
  rw [ofTable, ofMaps]

end SymbolTable

end HighAsm
