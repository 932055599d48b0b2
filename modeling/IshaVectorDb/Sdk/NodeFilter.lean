import IshaVectorDb.Sdk.FilterSteps

/-!
# `Sdk.NodeFilter` — the Node binding's parser, **from a query object to the tree itself**

Node binds the engine without the C interface between, so its parser builds the expression as it walks the object. It
sees an object through `napi`, which lists what an object inherits beside its own properties and looks a value up by its
name: what `napi` shows is a parameter.
-/

namespace IshaVectorDb.Sdk.Node

open Format Engine

/-- Why the parser refuses an object. -/
inductive ParseFault
  | tooDeep
  | takesFilter
  | takesFilterList
  | unknownKey (key : Str)
  | arrayValue (field : Str)
  | startsWithTakesString (field : Str)
  | unknownOperator (field op : Str)
  | takesArray (field : Str)
  | badValue (field : Str)
  | foreign

/-- Convert one JavaScript value. -/
def scalar (field : Str) : JsValue → Except ParseFault Value
  | .string s => .ok (.str s)
  | .bool b => .ok (.bool b)
  | .null => .ok .null
  | .undefined => .ok .null
  | .number bits => .ok (if integral bits then .i64 (toI64 bits) else .f64 bits)
  | _ => .error (.badValue field)

def scalars (field : Str) : List JsValue → Except ParseFault (List Value)
  | [] => .ok []
  | v :: rest => do
      let value ← scalar field v
      let values ← scalars field rest
      return value :: values

def scalarList (field : Str) : JsValue → Except ParseFault (List Value)
  | .array items => scalars field items
  | _ => .error (.takesArray field)

/-- One clause means itself, several their conjunction. -/
def conjunction : List Filter → Filter
  | [only] => only
  | clauses => .and clauses

/-- One operator of a field. -/
def parseOperator (field op : Str) (raw : JsValue) : Except ParseFault Filter :=
  if op.bytes = ascii "$eq" then do return .eq field (← scalar field raw)
  else if op.bytes = ascii "$ne" then do return .ne field (← scalar field raw)
  else if op.bytes = ascii "$gt" then do return .gt field (← scalar field raw)
  else if op.bytes = ascii "$gte" then do return .gte field (← scalar field raw)
  else if op.bytes = ascii "$lt" then do return .lt field (← scalar field raw)
  else if op.bytes = ascii "$lte" then do return .lte field (← scalar field raw)
  else if op.bytes = ascii "$contains" then do return .contains field (← scalar field raw)
  else if op.bytes = ascii "$startsWith" then do
    match ← scalar field raw with
    | .str start => return .startsWith field start
    | _ => .error (.startsWithTakesString field)
  else if op.bytes = ascii "$in" then do return .in_ field (← scalarList field raw)
  else if op.bytes = ascii "$nin" then do return .nin field (← scalarList field raw)
  else if op.bytes = ascii "$exists" then return (if raw.truthy then .exists_ field else .isNull field)
  else .error (.unknownOperator field op)

/-- **What `napi` shows of an object** with these properties of its own: the names it lists and the value it finds by a name;
    and what it makes of a value that is no object where an object is wanted. -/
structure Napi where
  names : List (Str × JsValue) → List Str
  named : List (Str × JsValue) → Str → JsValue
  foreign : Nat → JsValue → Except ParseFault Filter

section

variable (napi : Napi)

/-- The operators of a field. -/
def parseOperators (field : Str) (operators : List (Str × JsValue)) : Except ParseFault (List Filter) :=
  (napi.names operators).mapM (fun op => parseOperator field op (napi.named operators op))

/-- One field's clause: a bare value means equality, an object means operators. -/
def parseField (field : Str) : JsValue → Except ParseFault Filter
  | .array _ => .error (.arrayValue field)
  | .object operators => do
      let clauses ← parseOperators napi field operators
      return conjunction clauses
  | v => do return .eq field (← scalar field v)

/-- The list of filters that `$and` and `$or` take; `inner` parses one of them. -/
def parseList (inner : JsValue → Except ParseFault Filter) : JsValue → Except ParseFault (List Filter)
  | .array items => items.mapM inner
  | _ => .error .takesFilterList

/-- One property of a filter object; `inner` parses a filter object in it. -/
def parseClause (inner : JsValue → Except ParseFault Filter) (key : Str) (value : JsValue) : Except ParseFault Filter :=
  if key.bytes = ascii "$and" then do return .and (← parseList inner value)
  else if key.bytes = ascii "$or" then do return .or (← parseList inner value)
  else if key.bytes = ascii "$not" then
    if value.isObject then do return .not (← inner value) else .error .takesFilter
  else if (ascii "$").isPrefixOf key.bytes then .error (.unknownKey key)
  else parseField napi key value

/-- Parse a filter object, at most so many levels of them; a value that is none is `napi`'s matter. -/
def parseObject : Nat → Nat → JsValue → Except ParseFault Filter
  | 0, _, _ => .error .tooDeep
  | levels + 1, depth, .object properties =>
      if maxDepth < depth then .error .tooDeep
      else do
        let clauses ← (napi.names properties).mapM (fun key =>
          parseClause napi (parseObject levels (depth + 1)) key (napi.named properties key))
        return conjunction clauses
  | _ + 1, depth, v => napi.foreign depth v

/-- **Parse a filter object.** One level more than the deepest that is accepted is looked at, and refused. -/
def parse (filter : JsValue) : Except ParseFault Filter := parseObject napi (maxDepth + 1) 1 filter

end

end IshaVectorDb.Sdk.Node
