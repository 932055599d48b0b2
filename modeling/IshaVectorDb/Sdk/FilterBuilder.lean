import IshaVectorDb.Sdk.FilterSteps

/-!
# `Sdk.FilterBuilder` — the **C filter builder** under any sequence of calls

The builder is a stack of partly built filters. Leaves are pushed; a combinator takes the topmost few and pushes one.
Its callers are C programs: every handle and pointer may be null, every text may be bytes that are not UTF-8, every
operator, predicate, combinator and count may be any number.

`written` is a filter written out in postfix order. `builder_exact_iff` says when the builder keeps its promise
over a whole run, that a refused call leaves the stack alone and that a finished filter, written out, is what the accepted
calls say: unless some call combines by a combinator that there is not, and takes expressions off the stack for it. The
bridge that replays a compiled filter is one of the callers, and its filter is the builder's (`finish_of_buildFilter`).
-/

namespace IshaVectorDb.Sdk

open Format Engine Parsing

/-! ## What a call is given -/

/-- Why the boundary refuses a call. -/
inductive Boundary
  | null
  | utf8
  | invalidArgument
deriving DecidableEq, Repr

/-- A pointer and a length: a null pointer with some length, or that many readable bytes. -/
inductive CText
  | null (len : Nat)
  | readable (bytes : Bytes)

/-- Borrow a caller-supplied byte buffer. -/
def borrowBytes : CText → Except Boundary Bytes
  | .null 0 => .ok []
  | .null (_ + 1) => .error .null
  | .readable bytes => .ok bytes

/-- Borrow a caller-supplied UTF-8 string. -/
def borrowStr (text : CText) : Except Boundary Str := do
  let bytes ← borrowBytes text
  match fromUtf8 bytes with
  | some s => return s
  | none => .error .utf8

/-- A call of the builder; `live` says that its handle is not null. -/
inductive BuilderCall
  | compareStr (live : Bool) (field : CText) (op : Int32) (value : CText)
  | compareI64 (live : Bool) (field : CText) (op : Int32) (value : UInt64)
  | compareF64 (live : Bool) (field : CText) (op : Int32) (bits : UInt64)
  | compareBool (live : Bool) (field : CText) (op : Int32) (value : Bool)
  | unary (live : Bool) (field : CText) (predicate : Int32)
  | combine (live : Bool) (combinator : Int32) (count : Nat)

/-! ## The builder -/

namespace Builder

/-- The comparison that an operator's number stands for. -/
def comparison (field : Str) (op : Int32) (value : Value) : Except Boundary Filter :=
  if op = 1 then .ok (.eq field value)
  else if op = 2 then .ok (.ne field value)
  else if op = 3 then .ok (.gt field value)
  else if op = 4 then .ok (.gte field value)
  else if op = 5 then .ok (.lt field value)
  else if op = 6 then .ok (.lte field value)
  else if op = 8 then .ok (.contains field value)
  else if op = 7 then match value with
    | .str start => .ok (.startsWith field start)
    | _ => .error .invalidArgument
  else .error .invalidArgument

/-- The predicate that a number stands for. -/
def predicateOf (field : Str) (predicate : Int32) : Except Boundary Filter :=
  if predicate = 1 then .ok (.exists_ field)
  else if predicate = 2 then .ok (.isNull field)
  else .error .invalidArgument

/-- Push what was built, if it was. -/
def push (built : Except Boundary Filter) (stack : List Filter) : Except Boundary Unit × List Filter :=
  match built with
  | .ok f => (.ok (), stack ++ [f])
  | .error e => (.error e, stack)

/-- `borrow_mut`, and then the field. -/
def withField (live : Bool) (field : CText) (build : Str → Except Boundary Filter) : Except Boundary Filter :=
  if live then borrowStr field >>= build else .error .null

/-- `vdb_filter_combine`. -/
def combine (live : Bool) (combinator : Int32) (count : Nat) (stack : List Filter) :
    Except Boundary Unit × List Filter :=
  if !live then (.error .null, stack)
  else if count = 0 ∨ stack.length < count then (.error .invalidArgument, stack)
  else if combinator = 3 ∧ count ≠ 1 then (.error .invalidArgument, stack)
  else
    -- `split_off`: from here on the operands are off the stack
    let operands := stack.drop (stack.length - count)
    let stack := stack.take (stack.length - count)
    if combinator = 1 then (.ok (), stack ++ [.and operands])
    else if combinator = 2 then (.ok (), stack ++ [.or operands])
    else if combinator = 3 then match operands with
      | only :: _ => (.ok (), stack ++ [.not only])
      | [] => (.error .invalidArgument, stack)
    else (.error .invalidArgument, stack)

/-- **One call**: its answer, and the stack it leaves. -/
def call (stack : List Filter) : BuilderCall → Except Boundary Unit × List Filter
  | .compareStr live field op value =>
      push (withField live field (fun f => borrowStr value >>= fun v => comparison f op (.str v))) stack
  | .compareI64 live field op value => push (withField live field (fun f => comparison f op (.i64 value))) stack
  | .compareF64 live field op bits => push (withField live field (fun f => comparison f op (.f64 bits))) stack
  | .compareBool live field op value => push (withField live field (fun f => comparison f op (.bool value))) stack
  | .unary live field predicate => push (withField live field (fun f => predicateOf f predicate)) stack
  | .combine live combinator count => combine live combinator count stack

/-- The stack after a sequence of calls on a new builder. -/
def run (calls : List BuilderCall) : List Filter := calls.foldl (fun stack c => (call stack c).2) []

/-- The finished filter, if the sequence built exactly one. -/
def finish : List Filter → Option Filter
  | [only] => some only
  | _ => none

end Builder

/-! ## Postfix order -/

inductive Combinator
  | and
  | or
  | not
deriving DecidableEq, Repr

/-- One expression of a filter in postfix order: a leaf, or a combinator and how many operands it takes. -/
inductive Word
  | leaf (f : Filter)
  | combine (c : Combinator) (count : Nat)

mutual

/-- **A filter in postfix order**: the operands of a combinator, the first first, and then the combinator. -/
def written : Filter → List Word
  | .and children => writtenAll children ++ [.combine .and children.length]
  | .or children => writtenAll children ++ [.combine .or children.length]
  | .not child => written child ++ [.combine .not 1]
  | .eq field value => [.leaf (.eq field value)]
  | .ne field value => [.leaf (.ne field value)]
  | .gt field value => [.leaf (.gt field value)]
  | .gte field value => [.leaf (.gte field value)]
  | .lt field value => [.leaf (.lt field value)]
  | .lte field value => [.leaf (.lte field value)]
  | .in_ field values => [.leaf (.in_ field values)]
  | .nin field values => [.leaf (.nin field values)]
  | .exists_ field => [.leaf (.exists_ field)]
  | .isNull field => [.leaf (.isNull field)]
  | .startsWith field start => [.leaf (.startsWith field start)]
  | .contains field value => [.leaf (.contains field value)]
termination_by structural f => f

def writtenAll : List Filter → List Word
  | [] => []
  | f :: rest => written f ++ writtenAll rest
termination_by structural l => l

end

/-- The words of a stack, from the bottom up. -/
theorem writtenAll_eq (fs : List Filter) : writtenAll fs = fs.flatMap written := by
  induction fs with
  | nil => rfl
  | cons f fs ih => rw [writtenAll, ih, List.flatMap_cons]

/-- The filter that a combinator makes of its operands. -/
def combined (operands : List Filter) : Combinator → Filter
  | .and => .and operands
  | .or => .or operands
  | .not => .not (operands.headD (.and []))

/-- Reading one word, with the filters read so far. -/
def readWord (stack : List Filter) : Word → List Filter
  | .leaf f => stack ++ [f]
  | .combine c count => stack.take (stack.length - count) ++ [combined (stack.drop (stack.length - count)) c]

theorem readWord_combine (stack operands : List Filter) (c : Combinator) :
    readWord (stack ++ operands) (.combine c operands.length) = stack ++ [combined operands c] := by
  have hrest : (stack ++ operands).length - operands.length = stack.length := by
    rw [List.length_append, Nat.add_sub_cancel]
  show List.take _ _ ++ [combined (List.drop _ _) c] = _
  rw [hrest, List.take_left, List.drop_left]

mutual

/-- What is written reads back. -/
theorem read_written (f : Filter) (stack : List Filter) : (written f).foldl readWord stack = stack ++ [f] := by
  cases f with
  | and children =>
    rw [written, List.foldl_append, read_writtenAll children stack]
    exact readWord_combine stack children .and
  | or children =>
    rw [written, List.foldl_append, read_writtenAll children stack]
    exact readWord_combine stack children .or
  | not child =>
    rw [written, List.foldl_append, read_written child stack]
    exact readWord_combine stack [child] .not
  | _ => rfl
termination_by structural f

theorem read_writtenAll (fs : List Filter) (stack : List Filter) :
    (writtenAll fs).foldl readWord stack = stack ++ fs := by
  cases fs with
  | nil => exact (List.append_nil stack).symm
  | cons f fs =>
    rw [writtenAll, List.foldl_append, read_written f stack, read_writtenAll fs (stack ++ [f]), List.append_assoc]
    rfl
termination_by structural fs

end

/-- **Postfix order says which filter it is.** -/
theorem written_injective : Function.Injective written := by
  intro f g h
  have hf := read_written f []
  rw [h, read_written g []] at hf
  exact (List.cons.inj hf).1.symm

namespace Builder

/-- Whether a filter is a comparison or a predicate. -/
def IsLeaf (f : Filter) : Prop := written f = [Word.leaf f]

/-- What a combinator's number stands for. -/
def combinatorOf (combinator : Int32) : Option Combinator :=
  if combinator = 1 then some .and
  else if combinator = 2 then some .or
  else if combinator = 3 then some .not
  else none

/-- The leaf that a call builds from what it is given. -/
def leafOf : BuilderCall → Except Boundary Filter
  | .compareStr live field op value =>
      withField live field (fun f => borrowStr value >>= fun v => comparison f op (.str v))
  | .compareI64 live field op value => withField live field (fun f => comparison f op (.i64 value))
  | .compareF64 live field op bits => withField live field (fun f => comparison f op (.f64 bits))
  | .compareBool live field op value => withField live field (fun f => comparison f op (.bool value))
  | .unary live field predicate => withField live field (fun f => predicateOf f predicate)
  | .combine .. => .error .invalidArgument

/-- **What a call says**, when it is accepted: a leaf, or a combinator and its count. -/
def wordOf : BuilderCall → Option Word
  | .combine _ combinator count => (combinatorOf combinator).map (fun c => .combine c count)
  | c => (leafOf c).toOption.map .leaf

/-- Whether a call was accepted. -/
def accepted (stack : List Filter) (c : BuilderCall) : Bool := (call stack c).1.isOk

/-- What the accepted calls of a sequence say, in their order, from a stack on. -/
def saidFrom (stack : List Filter) : List BuilderCall → List Word
  | [] => []
  | c :: rest => (if accepted stack c then (wordOf c).toList else []) ++ saidFrom (call stack c).2 rest

def said (calls : List BuilderCall) : List Word := saidFrom [] calls

/-- **The promise**: a call that is refused leaves the stack exactly as it was, and the finished filter, if there is
    one, is what the accepted calls say in postfix order. -/
structure Exact (calls : List BuilderCall) : Prop where
  untouched : ∀ before c after, calls = before ++ c :: after → accepted (run before) c = false →
    run (before ++ [c]) = run before
  denoted : ∀ f, finish (run calls) = some f → written f = said calls

/-- A call that combines by a combinator that there is not, with a count the stack has. -/
def Unknown (stack : List Filter) : BuilderCall → Prop
  | .combine live combinator count =>
      live = true ∧ 1 ≤ count ∧ count ≤ stack.length ∧ combinatorOf combinator = none
  | _ => False

/-! ## One call -/

variable {stack : List Filter} {c : BuilderCall}

theorem comparison_leaf {field : Str} {op : Int32} {value : Value} {f : Filter}
    (h : comparison field op value = .ok f) : IsLeaf f := by
  unfold comparison at h
  split_ifs at h
  · cases h; rfl
  · cases h; rfl
  · cases h; rfl
  · cases h; rfl
  · cases h; rfl
  · cases h; rfl
  · cases h; rfl
  · cases value with
    | str start => cases h; rfl
    | _ => cases h

theorem predicateOf_leaf {field : Str} {predicate : Int32} {f : Filter} (h : predicateOf field predicate = .ok f) :
    IsLeaf f := by
  unfold predicateOf at h
  split_ifs at h
  · cases h; rfl
  · cases h; rfl

theorem withField_ok {live : Bool} {field : CText} {build : Str → Except Boundary Filter} {f : Filter}
    (h : withField live field build = .ok f) : ∃ s, build s = .ok f := by
  unfold withField at h
  split at h
  · cases hs : borrowStr field with
    | error e => rw [hs] at h; cases h
    | ok s => rw [hs] at h; exact ⟨s, h⟩
  · cases h

theorem leafOf_leaf {f : Filter} (h : leafOf c = .ok f) : IsLeaf f := by
  cases c with
  | compareStr live field op value =>
    obtain ⟨s, hs⟩ := withField_ok h
    cases hv : borrowStr value with
    | error e => rw [hv] at hs; cases hs
    | ok v => rw [hv] at hs; exact comparison_leaf hs
  | compareI64 live field op value =>
    obtain ⟨s, hs⟩ := withField_ok h
    exact comparison_leaf hs
  | compareF64 live field op bits =>
    obtain ⟨s, hs⟩ := withField_ok h
    exact comparison_leaf hs
  | compareBool live field op value =>
    obtain ⟨s, hs⟩ := withField_ok h
    exact comparison_leaf hs
  | unary live field predicate =>
    obtain ⟨s, hs⟩ := withField_ok h
    exact predicateOf_leaf hs
  | combine live combinator count => cases h

/-- **What a call can do**: be accepted and add its word to the stack's; be refused and leave the stack alone; or, by a
    combinator that there is not, be refused and lose the operands. -/
inductive Outcome (stack : List Filter) (c : BuilderCall) : Except Boundary Unit × List Filter → Prop
  | accepted {stack' : List Filter} {w : Word} (hw : wordOf c = some w)
      (hwords : stack'.flatMap written = stack.flatMap written ++ [w]) : Outcome stack c (.ok (), stack')
  | refused (e : Boundary) (h : ¬ Unknown stack c) : Outcome stack c (.error e, stack)
  | lost (e : Boundary) {stack' : List Filter} (h : Unknown stack c) (hless : stack'.length < stack.length) :
      Outcome stack c (.error e, stack')

theorem push_outcome (hword : wordOf c = (leafOf c).toOption.map .leaf) (hnot : ¬ Unknown stack c) :
    Outcome stack c (push (leafOf c) stack) := by
  cases hf : leafOf c with
  | error e => exact .refused e hnot
  | ok f =>
    refine .accepted (w := .leaf f) (by rw [hword, hf]; rfl) ?_
    rw [List.flatMap_append, List.flatMap_singleton, leafOf_leaf hf]

theorem combined_outcome {live : Bool} {combinator : Int32} {count : Nat} (which : Combinator) {e : Filter}
    (hcombinator : combinatorOf combinator = some which)
    (he : written e = (stack.drop (stack.length - count)).flatMap written ++ [.combine which count]) :
    Outcome stack (.combine live combinator count) (.ok (), stack.take (stack.length - count) ++ [e]) := by
  refine .accepted (w := .combine which count) (by rw [wordOf, hcombinator]; rfl) ?_
  rw [List.flatMap_append, List.flatMap_singleton, he, ← List.append_assoc, ← List.flatMap_append,
    List.take_append_drop]

theorem combine_outcome (live : Bool) (combinator : Int32) (count : Nat) :
    Outcome stack (.combine live combinator count) (combine live combinator count stack) := by
  unfold combine
  split
  · rename_i hlive
    exact .refused .null (fun h => by rw [h.1] at hlive; cases hlive)
  · rename_i hlive
    split
    · exact .refused .invalidArgument (fun h => by have h1 := h.2.1; have h2 := h.2.2.1; omega)
    · rename_i hcount
      have hlen : (stack.drop (stack.length - count)).length = count := by
        rw [List.length_drop]
        omega
      split
      · rename_i hnot
        refine .refused .invalidArgument (fun h => ?_)
        have hnone := h.2.2.2
        rw [hnot.1] at hnone
        cases hnone
      · rename_i hone
        dsimp only
        split_ifs with h1 h2 h3
        · refine combined_outcome .and (by rw [h1]; rfl) ?_
          rw [written, writtenAll_eq, hlen]
        · refine combined_outcome .or (by rw [h2]; rfl) ?_
          rw [written, writtenAll_eq, hlen]
        · have hsingle : count = 1 := by
            by_contra hne
            exact hone ⟨h3, hne⟩
          subst hsingle
          obtain ⟨only, honly⟩ := List.length_eq_one_iff.mp hlen
          rw [honly]
          refine combined_outcome .not (by rw [h3]; rfl) ?_
          rw [honly, written, List.flatMap_singleton]
        · refine .lost .invalidArgument ⟨by simpa using hlive, by omega, by omega, ?_⟩ ?_
          · unfold combinatorOf
            rw [if_neg h1, if_neg h2, if_neg h3]
          · rw [List.length_take]
            omega

theorem call_outcome (stack : List Filter) (c : BuilderCall) : Outcome stack c (call stack c) := by
  cases c with
  | compareStr live field op value => exact push_outcome rfl id
  | compareI64 live field op value => exact push_outcome rfl id
  | compareF64 live field op bits => exact push_outcome rfl id
  | compareBool live field op value => exact push_outcome rfl id
  | unary live field predicate => exact push_outcome rfl id
  | combine live combinator count => exact combine_outcome live combinator count

/-! ## Whole runs -/

theorem run_concat (calls : List BuilderCall) (c : BuilderCall) : run (calls ++ [c]) = (call (run calls) c).2 := by
  rw [run, List.foldl_append]
  rfl

theorem saidFrom_append (before after : List BuilderCall) (stack : List Filter) :
    saidFrom stack (before ++ after) =
      saidFrom stack before ++ saidFrom (before.foldl (fun stack c => (call stack c).2) stack) after := by
  induction before generalizing stack with
  | nil => rfl
  | cons c before ih => rw [List.cons_append, saidFrom, saidFrom, ih, List.append_assoc, List.foldl_cons]

theorem said_concat (calls : List BuilderCall) (c : BuilderCall) :
    said (calls ++ [c]) = said calls ++ if accepted (run calls) c then (wordOf c).toList else [] := by
  rw [said, saidFrom_append]
  show _ = saidFrom [] calls ++ _
  rw [show calls.foldl (fun stack c => (call stack c).2) [] = run calls from rfl, saidFrom, saidFrom, List.append_nil]

/-- **The stack's words are what was said**, as long as no operands are lost. -/
theorem run_words (calls : List BuilderCall)
    (h : ∀ before c after, calls = before ++ c :: after → ¬ Unknown (run before) c) :
    (run calls).flatMap written = said calls := by
  induction calls using List.reverseRecOn with
  | nil => rfl
  | append_singleton calls c ih =>
    have hwords := ih (fun before d after hsplit => h before d (after ++ [c]) (by rw [hsplit]; simp))
    have hknown := h calls c [] rfl
    rw [run_concat, said_concat, ← hwords]
    have houtcome := call_outcome (run calls) c
    unfold accepted
    generalize call (run calls) c = answer at houtcome
    cases houtcome with
    | accepted hw hadd => rw [hadd, hw]; rfl
    | refused e _ => exact (List.append_nil _).symm
    | lost e hlost _ => exact absurd hlost hknown

/-- **When the builder keeps its promise.** Over any sequence of calls: a refused call leaves the stack alone and the
    finished filter is what the accepted calls say, if and only if no call combines by a combinator that there is not,
    with a count the stack has at that point. -/
theorem builder_exact_iff (calls : List BuilderCall) :
    Exact calls ↔ ∀ before c after, calls = before ++ c :: after → ¬ Unknown (run before) c := by
  refine ⟨fun hexact before c after hsplit hunknown => ?_, fun hknown => ⟨?_, fun f hf => ?_⟩⟩
  · have huntouched := hexact.untouched before c after hsplit
    rw [run_concat] at huntouched
    unfold accepted at huntouched
    have houtcome := call_outcome (run before) c
    generalize call (run before) c = answer at houtcome huntouched
    cases houtcome with
    | accepted hw _ =>
      cases c with
      | combine live combinator count =>
        rw [wordOf, hunknown.2.2.2] at hw
        cases hw
      | _ => exact hunknown
    | refused e hnot => exact hnot hunknown
    | lost e _ hless =>
      have hsame := congrArg List.length (huntouched rfl)
      dsimp only at hsame
      omega
  · intro before c after hsplit hrefused
    have hnot := hknown before c after hsplit
    rw [run_concat]
    unfold accepted at hrefused
    have houtcome := call_outcome (run before) c
    generalize call (run before) c = answer at houtcome hrefused
    cases houtcome with
    | accepted hw _ => cases hrefused
    | refused e _ => rfl
    | lost e hlost _ => exact absurd hlost hnot
  · have hwords := run_words calls hknown
    unfold finish at hf
    split at hf
    · rename_i only hrun
      obtain rfl := Option.some.inj hf
      rw [hrun, List.flatMap_singleton] at hwords
      exact hwords
    · cases hf

/-- A comparison of a one-letter field with true. -/
def isTrue (letter : UInt8) : BuilderCall := .compareBool true (.readable [letter]) 1 true

/-- **Combining one expression by 99** is refused and takes the expression with it: of the two conditions only the first
    is left, and the builder is finished with it. -/
theorem loses_operands : ¬ ∀ calls, Exact calls := by
  intro hall
  have huntouched := (hall [isTrue 97, isTrue 98, .combine true 99 1]).untouched [isTrue 97, isTrue 98]
    (.combine true 99 1) [] rfl (by decide)
  have hlen : (run ([isTrue 97, isTrue 98] ++ [.combine true 99 1])).length = 1 := by decide
  rw [huntouched] at hlen
  exact absurd hlen (by decide)

/-! ## The bridge's calls -/

/-- The call that the bridge makes of a step: its handle is not null and its texts are readable. -/
def ofStep (s : Step) : Option BuilderCall :=
  match s.kind with
  | 1 => some (.compareStr true (.readable s.field.bytes) (.ofNat s.op) (.readable s.text.bytes))
  | 2 => some (.compareI64 true (.readable s.field.bytes) (.ofNat s.op) (toI64 s.number))
  | 3 => some (.compareF64 true (.readable s.field.bytes) (.ofNat s.op) s.number)
  | 4 => some (.compareBool true (.readable s.field.bytes) (.ofNat s.op) s.flag)
  | 5 => some (.unary true (.readable s.field.bytes) (.ofNat s.op))
  | 6 => some (.combine true (.ofNat s.op) s.count)
  | _ => none

/-- What a call leaves, where it is accepted. -/
def kept : Except Boundary Unit × List Filter → Option (List Filter)
  | (.ok (), stack) => some stack
  | (.error _, _) => none

/-- Two small numbers that differ are different operators. -/
theorem ofNat_ne {m n : Nat} (hm : m < 2 ^ 31) (hn : n < 2 ^ 31) (h : m ≠ n) :
    ¬ Int32.ofNat m = OfNat.ofNat n := fun he => by
  have hint : (Int32.ofNat m).toInt = (Int32.ofNat n).toInt := congrArg Int32.toInt he
  rw [Int32.toInt_ofNat_of_lt hm, Int32.toInt_ofNat_of_lt hn] at hint
  exact h (Int.ofNat_inj.mp hint)

variable {stack' : List Filter}

theorem borrowStr_bytes (s : Str) : borrowStr (.readable s.bytes) = .ok s := by
  show (match fromUtf8 s.bytes with | some s => Except.ok s | none => .error Boundary.utf8) = _
  rw [fromUtf8_bytes]

theorem withField_bytes (field : Str) (build : Str → Except Boundary Filter) :
    withField true (.readable field.bytes) build = build field := by
  show borrowStr _ >>= build = _
  rw [borrowStr_bytes]
  rfl

theorem comparison_replayed (field : Str) {op : Nat} (hop : op < 2 ^ 31) (value : Value) :
    kept (push (comparison field (.ofNat op) value) stack) = (VdbFilter.pushCompare stack field op value).toOption := by
  unfold VdbFilter.pushCompare
  split
  · rfl
  · rfl
  · rfl
  · rfl
  · rfl
  · rfl
  · rfl
  · cases value <;> rfl
  · -- none of the operators' numbers
    rename_i h1 h2 h3 h4 h5 h6 h8 h7
    unfold comparison
    rw [if_neg (ofNat_ne hop (n := 1) (by decide) h1), if_neg (ofNat_ne hop (n := 2) (by decide) h2),
      if_neg (ofNat_ne hop (n := 3) (by decide) h3), if_neg (ofNat_ne hop (n := 4) (by decide) h4),
      if_neg (ofNat_ne hop (n := 5) (by decide) h5), if_neg (ofNat_ne hop (n := 6) (by decide) h6),
      if_neg (ofNat_ne hop (n := 8) (by decide) h8), if_neg (ofNat_ne hop (n := 7) (by decide) h7)]
    rfl

theorem unary_replayed (field : Str) {op : Nat} (hop : op < 2 ^ 31) :
    kept (push (predicateOf field (.ofNat op)) stack) = (VdbFilter.unary stack field op).toOption := by
  unfold VdbFilter.unary
  split
  · rfl
  · rfl
  · rename_i h1 h2
    unfold predicateOf
    rw [if_neg (ofNat_ne hop (n := 1) (by decide) h1), if_neg (ofNat_ne hop (n := 2) (by decide) h2)]
    rfl

theorem combine_replayed {op : Nat} (hop : op < 2 ^ 31) (count : Nat) :
    kept (combine true (.ofNat op) count stack) = (VdbFilter.combine stack op count).toOption := by
  have hnot : Int32.ofNat op = 3 ↔ op = 3 :=
    ⟨fun h => by by_contra hne; exact ofNat_ne hop (n := 3) (by decide) hne h, fun h => by rw [h]; rfl⟩
  unfold combine VdbFilter.combine
  rw [if_neg (by decide : ¬ (!true) = true)]
  simp only [hnot]
  split
  · rfl
  split
  · rfl
  by_cases h1 : op = 1
  · subst h1; rfl
  by_cases h2 : op = 2
  · subst h2; rfl
  by_cases h3 : op = 3
  · subst h3
    generalize stack.drop (stack.length - count) = operands
    cases operands <;> rfl
  · rw [if_neg (ofNat_ne hop (n := 1) (by decide) h1), if_neg (ofNat_ne hop (n := 2) (by decide) h2), if_neg h3]
    split
    · exact absurd rfl h1
    · exact absurd rfl h2
    · exact absurd rfl h3
    · rfl

/-- **A replayed step is the bridge's call**: it is accepted when the call is, and leaves the stack that the call leaves. -/
theorem step_replayed (stack : List Filter) {s : Step} (hop : s.op < 2 ^ 31) :
    (ofStep s).bind (fun c => kept (call stack c)) = (replayStep stack s).toOption := by
  obtain ⟨kind, field, op, text, number, flag, count⟩ := s
  match kind with
  | 1 =>
    show kept (push (withField true _ _) stack) = _
    rw [withField_bytes, borrowStr_bytes]
    exact comparison_replayed field hop (.str text)
  | 2 =>
    show kept (push (withField true _ _) stack) = _
    rw [withField_bytes]
    exact comparison_replayed field hop (.i64 (toI64 number))
  | 3 =>
    show kept (push (withField true _ _) stack) = _
    rw [withField_bytes]
    exact comparison_replayed field hop (.f64 number)
  | 4 =>
    show kept (push (withField true _ _) stack) = _
    rw [withField_bytes]
    exact comparison_replayed field hop (.bool flag)
  | 5 =>
    show kept (push (withField true _ _) stack) = _
    rw [withField_bytes]
    exact unary_replayed field hop
  | 6 => exact combine_replayed hop count
  -- there is no such step
  | 0 => rfl
  | k + 7 => rfl

theorem op_of_replayed {s : Step} (h : replayStep stack s = .ok stack') : s.op < 2 ^ 31 := by
  by_contra hop
  unfold replayStep at h
  split at h
  · unfold VdbFilter.pushCompare at h
    split at h <;> first | omega | cases h
  · unfold VdbFilter.pushCompare at h
    split at h <;> first | omega | cases h
  · unfold VdbFilter.pushCompare at h
    split at h <;> first | omega | cases h
  · unfold VdbFilter.pushCompare at h
    split at h <;> first | omega | cases h
  · unfold VdbFilter.unary at h
    split at h <;> first | omega | cases h
  · unfold VdbFilter.combine at h
    split at h
    · cases h
    split at h
    · cases h
    split at h <;> first | omega | cases h
  · cases h

theorem kept_eq_some {answer : Except Boundary Unit × List Filter} (h : kept answer = some stack) : answer.2 = stack := by
  unfold kept at h
  split at h
  · exact Option.some.inj h
  · cases h

/-- **What the bridge replays, the builder builds**: an accepted sequence leaves the stack that its calls leave. -/
theorem replay_run {steps : List Step} (h : replay steps stack = .ok stack') :
    (steps.filterMap ofStep).foldl (fun stack c => (call stack c).2) stack = stack' := by
  induction steps generalizing stack with
  | nil => cases h; rfl
  | cons s steps ih =>
    unfold replay at h
    rw [List.foldlM_cons] at h
    obtain ⟨mid, hmid, hrest⟩ := except_bind_eq_ok.mp h
    have hkept := step_replayed stack (op_of_replayed hmid)
    rw [hmid] at hkept
    obtain ⟨c, hc, hcall⟩ := Option.bind_eq_some_iff.mp hkept
    rw [List.filterMap_cons_some hc, List.foldl_cons, kept_eq_some hcall]
    exact ih hrest

/-- The bridge's filter is the builder's: one expression is left, and it is that one. -/
theorem finish_of_buildFilter {steps : List Step} {f : Filter}
    (h : buildFilter steps = .ok (some f)) : finish (run (steps.filterMap ofStep)) = some f := by
  unfold buildFilter at h
  split at h
  · cases h
  obtain ⟨stack, hstack, h⟩ := except_bind_eq_ok.mp h
  split at h
  · cases h
    rw [run, replay_run hstack]
    rfl
  · cases h

end Builder

end IshaVectorDb.Sdk
