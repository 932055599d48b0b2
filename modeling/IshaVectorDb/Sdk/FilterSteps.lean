import IshaVectorDb.Engine.Filter
import IshaVectorDb.Engine.PathText

/-!
# `Sdk.FilterSteps` — filters for the C interface: **a query object compiled to steps, and the steps replayed**

C cannot receive a tree, so a binding hands it a stack machine's program: push leaves, then combine the topmost few.
`compileFilter` is the compiler of the React Native package, from a JavaScript value to steps; `buildFilter` is its
bridge, which replays the steps on the builder behind the C interface.
-/

namespace IshaVectorDb.Sdk

open Format Engine

/-! ## JavaScript values -/

/-- A JavaScript value, as far as a filter looks at it: a number is its bits, a string its text, an object its own
    properties in their order. What is none of these (a function, a symbol, a big integer) is true or false. -/
inductive JsValue
  | undefined
  | null
  | bool (b : Bool)
  | number (bits : UInt64)
  | string (s : Str)
  | array (items : List JsValue)
  | object (properties : List (Str × JsValue))
  | other (truthy : Bool)

namespace JsValue

def isUndefined : JsValue → Bool
  | .undefined => true
  | _ => false

/-- `typeof` an object, an array being one. -/
def isObject : JsValue → Bool
  | .array _ => true
  | .object _ => true
  | _ => false

/-- A value as a condition. -/
def truthy : JsValue → Bool
  | .undefined => false
  | .null => false
  | .bool b => b
  | .number bits => match f64Key bits with
      | some key => key ≠ 0
      | none => false
  | .string s => s.bytes ≠ []
  | .array _ => true
  | .object _ => true
  | .other b => b

end JsValue

/-- `Number.isInteger(n) && Math.abs(n) < 9e15`, and `n.fract() == 0.0 && n.abs() < 9e15`. -/
def integral (bits : UInt64) : Bool :=
  match f64Key bits with
  | some key => key % 2 ^ 1074 = 0 ∧ key.natAbs < 9 * 10 ^ 15 * 2 ^ 1074
  | none => false

/-- An integral number as an `i64`, the bits of its two's complement. -/
def toI64 (bits : UInt64) : UInt64 :=
  match f64Key bits with
  | some key => UInt64.ofNat ((key / 2 ^ 1074) % 2 ^ 64).toNat
  | none => 0

/-- The empty string. -/
def emptyText : Str := ⟨[], utf8_empty⟩

/-! ## Steps -/

namespace StepKind

def compareString : Nat := 1
def compareI64 : Nat := 2
def compareF64 : Nat := 3
def compareBool : Nat := 4
def unary : Nat := 5
def combine : Nat := 6

end StepKind

namespace Op

def eq : Nat := 1
def ne : Nat := 2
def gt : Nat := 3
def gte : Nat := 4
def lt : Nat := 5
def lte : Nat := 6
def startsWith : Nat := 7
def contains : Nat := 8

end Op

namespace Unary

def exists_ : Nat := 1
def isNull : Nat := 2

end Unary

namespace Combine

def and : Nat := 1
def or : Nat := 2
def not : Nat := 3

end Combine

/-- One step, with every property present. -/
structure Step where
  kind : Nat
  field : Str
  op : Nat
  text : Str
  number : UInt64
  flag : Bool
  count : Nat

namespace Step

def compareString (field : Str) (op : Nat) (text : Str) : Step :=
  ⟨StepKind.compareString, field, op, text, 0, false, 0⟩

def compareBool (field : Str) (op : Nat) (flag : Bool) : Step :=
  ⟨StepKind.compareBool, field, op, emptyText, 0, flag, 0⟩

def compareNumber (kind : Nat) (field : Str) (op : Nat) (number : UInt64) : Step :=
  ⟨kind, field, op, emptyText, number, false, 0⟩

def unary (field : Str) (op : Nat) : Step := ⟨StepKind.unary, field, op, emptyText, 0, false, 0⟩

def combine (op count : Nat) : Step := ⟨StepKind.combine, emptyText, op, emptyText, 0, false, count⟩

end Step

/-! ## The compiler -/

/-- Why the compiler refuses a value. -/
inductive CompileFault
  | notAnObject
  | tooDeep
  | notAList (key : Str)
  | emptyList (key : Str)
  | notAFilter (key : Str)
  | emptyFilter (key : Str)
  | unknownKey (key : Str)
  | arrayValue (field : Str)
  | startsWithTakesString (field : Str)
  | takesArray (field op : Str)
  | needsValue (field op : Str)
  | unknownOperator (field op : Str)
  | emptyOperators (field : Str)
  | nullOrdering (field : Str)
  | notComparable (field : Str)
  | badValue (field : Str)

/-- Deepest nesting accepted. -/
def maxDepth : Nat := 32

/-- Combine `count` expressions already on the stack, unless there is only the one. -/
def conjoin (count : Nat) : List Step := if 1 < count then [.combine Combine.and count] else []

/-- Push a comparison, the step's kind chosen by the value's type. -/
def pushCompare (field : Str) (op : Nat) : JsValue → Except CompileFault (List Step)
  | .null =>
      if op = Op.eq then .ok [.unary field Unary.isNull]
      else if op = Op.ne then .ok [.unary field Unary.isNull, .combine Combine.not 1]
      else .error (.nullOrdering field)
  | .string s => .ok [.compareString field op s]
  | .bool b => .ok [.compareBool field op b]
  | .number bits =>
      if finite64 bits then
        .ok [.compareNumber (if integral bits then StepKind.compareI64 else StepKind.compareF64) field op bits]
      else .error (.notComparable field)
  | _ => .error (.badValue field)

/-- The equalities that a set of alternatives is desugared to. -/
def pushEach (field : Str) : List JsValue → Except CompileFault (List Step)
  | [] => .ok []
  | v :: rest => do
      let steps ← pushCompare field Op.eq v
      let more ← pushEach field rest
      return steps ++ more

/-- `$in` and `$nin`: a disjunction of equalities, and its negation. -/
def pushAlternatives (field op : Str) (negated : Bool) : JsValue → Except CompileFault (List Step)
  | .array values =>
      if values.isEmpty then .error (.needsValue field op)
      else do
        let steps ← pushEach field values
        return steps ++ (if 1 < values.length then [.combine Combine.or values.length] else []) ++
          (if negated then [.combine Combine.not 1] else [])
  | _ => .error (.takesArray field op)

/-- One operator of a field. -/
def walkOperator (field op : Str) (raw : JsValue) : Except CompileFault (List Step) :=
  if op.bytes = ascii "$eq" then pushCompare field Op.eq raw
  else if op.bytes = ascii "$ne" then pushCompare field Op.ne raw
  else if op.bytes = ascii "$gt" then pushCompare field Op.gt raw
  else if op.bytes = ascii "$gte" then pushCompare field Op.gte raw
  else if op.bytes = ascii "$lt" then pushCompare field Op.lt raw
  else if op.bytes = ascii "$lte" then pushCompare field Op.lte raw
  else if op.bytes = ascii "$contains" then pushCompare field Op.contains raw
  else if op.bytes = ascii "$startsWith" then match raw with
    | .string s => .ok [.compareString field Op.startsWith s]
    | _ => .error (.startsWithTakesString field)
  else if op.bytes = ascii "$in" then pushAlternatives field op false raw
  else if op.bytes = ascii "$nin" then pushAlternatives field op true raw
  else if op.bytes = ascii "$exists" then .ok [.unary field (if raw.truthy then Unary.exists_ else Unary.isNull)]
  else .error (.unknownOperator field op)

/-- The operators of a field, those left undefined skipped, and how many there were. -/
def walkEach (field : Str) : List (Str × JsValue) → Except CompileFault (List Step × Nat)
  | [] => .ok ([], 0)
  | p :: rest =>
      if p.2.isUndefined then walkEach field rest
      else do
        let steps ← walkOperator field p.1 p.2
        let (more, n) ← walkEach field rest
        return (steps ++ more, n + 1)

def walkOperators (field : Str) (depth : Nat) (operators : List (Str × JsValue)) :
    Except CompileFault (List Step) :=
  if maxDepth < depth then .error .tooDeep
  else do
    let (steps, clauses) ← walkEach field operators
    if clauses = 0 then .error (.emptyOperators field)
    else return steps ++ conjoin clauses

/-- One field's clause: a bare value means equality, an object means operators. -/
def walkField (field : Str) (depth : Nat) : JsValue → Except CompileFault (List Step)
  | .array _ => .error (.arrayValue field)
  | .object operators => walkOperators field depth operators
  | v => pushCompare field Op.eq v

mutual

/-- Walk the filter object that a key takes, and say how many clauses it pushed. -/
def walkObject (key : Str) (depth : Nat) : JsValue → Except CompileFault (List Step × Nat)
  | .object properties => if maxDepth < depth then .error .tooDeep else walkClauses depth properties
  | _ => .error (.notAFilter key)
termination_by structural v => v

def walkClauses (depth : Nat) : List (Str × JsValue) → Except CompileFault (List Step × Nat)
  | [] => .ok ([], 0)
  | p :: rest => do
      let (steps, n) ← walkClause depth p
      let (more, n') ← walkClauses depth rest
      return (steps ++ more, n + n')
termination_by structural l => l

/-- One property of a filter object; what is undefined is skipped. -/
def walkClause (depth : Nat) : Str × JsValue → Except CompileFault (List Step × Nat)
  | (key, value) =>
      if value.isUndefined then .ok ([], 0)
      else if key.bytes = ascii "$and" ∨ key.bytes = ascii "$or" then walkFilters key depth value
      else if key.bytes = ascii "$not" then do
        let (steps, pushed) ← walkObject key (depth + 1) value
        if pushed = 0 then .error (.emptyFilter key)
        else return (steps ++ conjoin pushed ++ [.combine Combine.not 1], 1)
      else if (ascii "$").isPrefixOf key.bytes then .error (.unknownKey key)
      else do
        let steps ← walkField key depth value
        return (steps, 1)
termination_by structural p => p

/-- The list of filters that `$and` and `$or` take. -/
def walkFilters (key : Str) (depth : Nat) : JsValue → Except CompileFault (List Step × Nat)
  | .array items =>
      if items.isEmpty then .error (.emptyList key)
      else do
        let steps ← walkList key depth items
        let combiner := if key.bytes = ascii "$and" then Combine.and else Combine.or
        return (steps ++ (if 1 < items.length then [.combine combiner items.length] else []), 1)
  | _ => .error (.notAList key)
termination_by structural v => v

/-- The filters of the list, each made one expression. -/
def walkList (key : Str) (depth : Nat) : List JsValue → Except CompileFault (List Step)
  | [] => .ok []
  | v :: rest => do
      let (steps, pushed) ← walkObject key (depth + 1) v
      if pushed = 0 then .error (.emptyFilter key)
      else do
        let more ← walkList key depth rest
        return steps ++ conjoin pushed ++ more
termination_by structural l => l

end

/-- **Compile a filter object into steps.** No steps mean no filter. -/
def compileFilter : JsValue → Except CompileFault (List Step)
  | .undefined => .ok []
  | .null => .ok []
  | .object properties => do
      let (steps, clauses) ← walkObject emptyText 1 (.object properties)
      if clauses = 0 then return [] else return steps ++ conjoin clauses
  | _ => .error .notAnObject

/-! ## The builder -/

/-- Why the builder, or the bridge, refuses a sequence. -/
inductive BuildFault
  | invalidArgument
  | unknownStep (kind : Nat)
  | incomplete (depth : Nat)

namespace VdbFilter

/-- A comparison of a field against a value. -/
def pushCompare (stack : List Filter) (field : Str) (op : Nat) (value : Value) : Except BuildFault (List Filter) :=
  match op with
  | 1 => .ok (stack ++ [.eq field value])
  | 2 => .ok (stack ++ [.ne field value])
  | 3 => .ok (stack ++ [.gt field value])
  | 4 => .ok (stack ++ [.gte field value])
  | 5 => .ok (stack ++ [.lt field value])
  | 6 => .ok (stack ++ [.lte field value])
  | 8 => .ok (stack ++ [.contains field value])
  | 7 => match value with
      | .str start => .ok (stack ++ [.startsWith field start])
      | _ => .error .invalidArgument
  | _ => .error .invalidArgument

def unary (stack : List Filter) (field : Str) (predicate : Nat) : Except BuildFault (List Filter) :=
  match predicate with
  | 1 => .ok (stack ++ [.exists_ field])
  | 2 => .ok (stack ++ [.isNull field])
  | _ => .error .invalidArgument

/-- Pop `count` expressions and push their combination. -/
def combine (stack : List Filter) (combinator count : Nat) : Except BuildFault (List Filter) :=
  if count = 0 ∨ stack.length < count then .error .invalidArgument
  else if combinator = 3 ∧ count ≠ 1 then .error .invalidArgument
  else
    let rest := stack.take (stack.length - count)
    let operands := stack.drop (stack.length - count)
    match combinator with
    | 1 => .ok (rest ++ [.and operands])
    | 2 => .ok (rest ++ [.or operands])
    | 3 => match operands with
        | only :: _ => .ok (rest ++ [.not only])
        | [] => .error .invalidArgument
    | _ => .error .invalidArgument

end VdbFilter

/-- One step on the builder's stack. -/
def replayStep (stack : List Filter) (s : Step) : Except BuildFault (List Filter) :=
  match s.kind with
  | 1 => VdbFilter.pushCompare stack s.field s.op (.str s.text)
  | 2 => VdbFilter.pushCompare stack s.field s.op (.i64 (toI64 s.number))
  | 3 => VdbFilter.pushCompare stack s.field s.op (.f64 s.number)
  | 4 => VdbFilter.pushCompare stack s.field s.op (.bool s.flag)
  | 5 => VdbFilter.unary stack s.field s.op
  | 6 => VdbFilter.combine stack s.op s.count
  | k => .error (.unknownStep k)

/-- Every step in turn. -/
def replay (steps : List Step) (stack : List Filter) : Except BuildFault (List Filter) := steps.foldlM replayStep stack

/-- **Replay a sequence onto a builder**: it must leave one expression, unless there is no sequence. -/
def buildFilter (steps : List Step) : Except BuildFault (Option Filter) :=
  if steps.isEmpty then .ok none
  else do
    let stack ← replay steps []
    match stack with
    | [only] => return some only
    | _ => .error (.incomplete stack.length)

end IshaVectorDb.Sdk
