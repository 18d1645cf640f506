import GraphQuery.Proofs.Expr.Every
import GraphQuery.Proofs.Name.LetterCase
import GraphQuery.Proofs.Name.Reading
import GraphQuery.Proofs.Scope.Table

set_option autoImplicit false

/-! # Calls of functions

A call is checked when it is made. `Callable` says which calls there are and `Refused` what is wrong
with the others; both look at the name as a chain of plain identifiers and at the known functions
that go by it, of which there is never more than one. The check gives a known function its own
spelling, so checking a call again changes nothing, and the letter case of the name does not matter.

The functions for calls of known functions make their calls without the check. They are all calls
that the check allows (`Helper.callOf_eq`), so in whatever way an expression is made, each call in
it is one that there is (`Expr.every_accepted`).
-/

namespace GraphQuery

/-! ## Names of functions

The check cuts a name at its full stops. A name is a chain of plain identifiers if there are
parts that make it up, and since no plain identifier has a full stop in it the parts are those of
the cut. -/

/-- A name that is one or more plain identifiers with a full stop between two of them. -/
def Name.IsChain (name : String) : Prop :=
  ∃ parts : List (List Char), parts ≠ [] ∧ (∀ p ∈ parts, plainChars p = true) ∧
    name.toList = ['.'].intercalate parts

theorem Name.stop_not_mem_of_plainChars {cs : List Char} (h : plainChars cs = true) :
    '.' ∉ cs := by
  intro hmem
  have hpart := List.all_eq_true.mp (all_isPart_of_plainChars h) '.' hmem
  exact absurd hpart (by decide)

theorem Name.isDotted_iff {name : String} : isDotted name = true ↔ IsChain name := by
  rw [isDotted, List.all_eq_true]
  constructor
  · intro h
    exact ⟨dotParts name.toList, dotParts_ne_nil _, h, (intercalate_dotParts _).symm⟩
  · rintro ⟨parts, hne, hplain, hname⟩
    rw [hname, dotParts_intercalate hne fun p hp => stop_not_mem_of_plainChars (hplain p hp)]
    exact hplain

/-! ## Known functions

A function is known by every name with its small letters. That no two known functions share their
small letters is the one fact about the list that is found by going through it. -/

def Arity.Fits (a : Arity) (count : Nat) : Prop := a.least ≤ count ∧ ∀ most ∈ a.most?, count ≤ most

theorem Arity.allows_iff {a : Arity} {count : Nat} : a.allows count = true ↔ a.Fits count := by
  cases h : a.most? <;> simp [allows, Fits, h]

namespace Signature

/-- A known function goes by every name that has its small letters. -/
def GoesBy (s : Signature) (name : String) : Prop :=
  Name.smallLetters s.name = Name.smallLetters name

theorem nodup_smallLetters : (known.map fun s => Name.smallLetters s.name).Nodup := by
  decide +kernel

/-- There is one known function by a name at most. -/
theorem GoesBy.unique {s t : Signature} {name : String} (hs : s ∈ known) (ht : t ∈ known)
    (h : s.GoesBy name) (h' : t.GoesBy name) : s = t :=
  List.inj_on_of_nodup_map nodup_smallLetters hs ht (h.trans h'.symm)

theorem find?_eq_some_iff {s : Signature} {name : String} :
    find? name = some s ↔ s ∈ known ∧ s.GoesBy name :=
  NameTable.find?_key_eq_some_iff nodup_smallLetters

theorem find?_eq_none_iff {name : String} :
    find? name = none ↔ ∀ s ∈ known, ¬ s.GoesBy name := by
  simp [find?, GoesBy]

/-- The own spelling of the known function by a name, or else the name itself. -/
def canonical (name : String) : String := (find? name).elim name Signature.name

/-- The same functions go by a name in its own spelling. -/
theorem smallLetters_canonical (name : String) :
    Name.smallLetters (canonical name) = Name.smallLetters name := by
  unfold canonical
  cases h : find? name with
  | none => rfl
  | some s => exact (find?_eq_some_iff.mp h).2

/-- A known function has a name that it may be called by. -/
theorem isDotted_name {s : Signature} (hs : s ∈ known) : Name.isDotted s.name = true := by
  have hall : ∀ s ∈ known, Name.isDotted s.name = true := by decide
  exact hall s hs

theorem isChain_canonical {name : String} (h : Name.IsChain name) :
    Name.IsChain (canonical name) := by
  unfold canonical
  cases hfind : find? name with
  | none => exact h
  | some s => exact Name.isDotted_iff.mp (isDotted_name (find?_eq_some_iff.mp hfind).1)

/-- Names with the same small letters are those of the same known functions. -/
theorem find?_congr {a b : String} (h : Name.smallLetters a = Name.smallLetters b) :
    find? a = find? b := by
  rw [find?, find?, h]

theorem canonical_canonical (name : String) : canonical (canonical name) = canonical name := by
  have hfind := find?_congr (smallLetters_canonical name)
  cases h : find? name with
  | none => simp [canonical, h]
  | some s =>
      rw [h] at hfind
      rw [canonical, hfind, canonical, h]
      rfl

end Signature

/-! ## Which calls there are

`Callable` is what the documentation of the functions promises and does not mention the order of
the checks. The order shows in `Refused` alone: a name that is no chain is reported first, then
the number of arguments, and a `DISTINCT` last. -/

/-- A call that there is: its name is a chain of plain identifiers, and if a known function goes by
it, the number of arguments is in the range of that function, which is an aggregate if the call has
`DISTINCT`. -/
structure Callable (name : String) (count : Nat) (distinct : Bool) : Prop where
  chain : Name.IsChain name
  fits : ∀ s ∈ Signature.known, s.GoesBy name → s.arity.Fits count
  aggregate : ∀ s ∈ Signature.known, s.GoesBy name → distinct = true → s.aggregate = true

section

variable {name : String} {count : Nat} {distinct : Bool}

theorem Callable.of_unknown (hchain : Name.IsChain name)
    (hunknown : ∀ s ∈ Signature.known, ¬ s.GoesBy name) : Callable name count distinct := by
  constructor
  · exact hchain
  · exact fun s hs hby => absurd hby (hunknown s hs)
  · exact fun s hs hby => absurd hby (hunknown s hs)

theorem Callable.of_known (hchain : Name.IsChain name) {s : Signature} (hs : s ∈ Signature.known)
    (hby : s.GoesBy name) (hfits : s.arity.Fits count)
    (haggregate : distinct = true → s.aggregate = true) : Callable name count distinct := by
  constructor
  · exact hchain
  · intro t ht hby'
    rw [hby'.unique ht hs hby]
    exact hfits
  · intro t ht hby'
    rw [hby'.unique ht hs hby]
    exact haggregate

/-- Whether there is a call depends on the small letters of its name, and on whether the name is a
chain. -/
theorem Callable.congr {other : String} (h : Callable name count distinct)
    (hchain : Name.IsChain other) (hsmall : Name.smallLetters other = Name.smallLetters name) :
    Callable other count distinct := by
  constructor
  · exact hchain
  · exact fun s hs hby => h.fits s hs (hby.trans hsmall)
  · exact fun s hs hby => h.aggregate s hs (hby.trans hsmall)

/-- A call in its own spelling is there if the call is. -/
theorem Callable.canonical (h : Callable name count distinct) :
    Callable (Signature.canonical name) count distinct :=
  h.congr (Signature.isChain_canonical h.chain) (Signature.smallLetters_canonical name)

end

/-- What is wrong with a call. The number of arguments comes before a `DISTINCT` that is out of
place. -/
inductive Refused (name : String) (count : Nat) (distinct : Bool) : StructureError → Prop
  | name (h : ¬ Name.IsChain name) : Refused name count distinct (.functionName name)
  | arity (hname : Name.IsChain name) (s : Signature) (hs : s ∈ Signature.known)
      (hby : s.GoesBy name) (h : ¬ s.arity.Fits count) :
      Refused name count distinct (.functionArity s.name s.arity count)
  | distinct (hname : Name.IsChain name) (s : Signature) (hs : s ∈ Signature.known)
      (hby : s.GoesBy name) (hfits : s.arity.Fits count) (hdistinct : distinct = true)
      (h : s.aggregate = false) : Refused name count distinct (.distinctNotAggregate s.name)

/-- What a call comes to: its spelling, or what is wrong with it. -/
def Checked (name : String) (count : Nat) (distinct : Bool) :
    Except StructureError String → Prop
  | .ok spelling => Callable name count distinct ∧ spelling = Signature.canonical name
  | .error fault => Refused name count distinct fault

theorem checked_functionSpelling (name : String) (count : Nat) (distinct : Bool) :
    Checked name count distinct (functionSpelling name count distinct) := by
  unfold functionSpelling
  -- the cases are the tests of the check, in the order in which it makes them
  by_cases hname : Name.isDotted name = true
  · have hchain := Name.isDotted_iff.mp hname
    rw [if_neg (by simp [hname])]
    cases hfind : Signature.find? name with
    | none =>
        have hunknown := Signature.find?_eq_none_iff.mp hfind
        exact ⟨.of_unknown hchain hunknown, by rw [Signature.canonical, hfind]; rfl⟩
    | some s =>
        obtain ⟨hs, hby⟩ := Signature.find?_eq_some_iff.mp hfind
        by_cases hfits : s.arity.allows count = true
        · have hrange := Arity.allows_iff.mp hfits
          by_cases hdistinct : distinct = true ∧ s.aggregate = false
          · simp only [hfits, hdistinct]
            exact .distinct hchain s hs hby hrange rfl hdistinct.2
          · have haggregate : distinct = true → s.aggregate = true := by simpa using hdistinct
            have hplace : (distinct && !s.aggregate) = false := by simpa using haggregate
            simp only [hfits, hplace]
            exact ⟨.of_known hchain hs hby hrange haggregate,
              by rw [Signature.canonical, hfind]; rfl⟩
        · simp only [hfits]
          exact .arity hchain s hs hby (mt Arity.allows_iff.mpr hfits)
  · rw [if_pos (by simpa using hname)]
    exact .name (mt Name.isDotted_iff.mpr hname)

section

variable {name spelling : String} {count : Nat} {distinct : Bool} {fault fault' : StructureError}

theorem Refused.not_callable (h : Refused name count distinct fault) :
    ¬ Callable name count distinct := by
  intro hcall
  cases h with
  | name h => exact h hcall.chain
  | arity hname s hs hby h => exact h (hcall.fits s hs hby)
  | distinct hname s hs hby hfits hdistinct h =>
      rw [hcall.aggregate s hs hby hdistinct] at h
      exact Bool.noConfusion h

/-- There is one fault to report. -/
theorem Refused.unique (h : Refused name count distinct fault)
    (h' : Refused name count distinct fault') : fault = fault' := by
  cases h with
  | name h =>
      cases h' with
      | name => rfl
      | arity hname | distinct hname => exact absurd hname h
  | arity hname s hs hby h =>
      cases h' with
      | name h' => exact absurd hname h'
      | arity _ t ht hby' => rw [hby.unique hs ht hby']
      | distinct _ t ht hby' hfits =>
          rw [hby.unique hs ht hby'] at h
          exact absurd hfits h
  | distinct hname s hs hby hfits =>
      cases h' with
      | name h' => exact absurd hname h'
      | arity _ t ht hby' h' =>
          rw [hby.unique hs ht hby'] at hfits
          exact absurd hfits h'
      | distinct _ t ht hby' => rw [hby.unique hs ht hby']

theorem functionSpelling_eq_ok_iff : functionSpelling name count distinct = .ok spelling ↔
    Callable name count distinct ∧ spelling = Signature.canonical name := by
  have hchecked := checked_functionSpelling name count distinct
  cases h : functionSpelling name count distinct with
  | ok spelling' =>
      rw [h] at hchecked
      obtain ⟨hcall, rfl⟩ := hchecked
      simp [hcall, eq_comm]
  | error fault =>
      rw [h] at hchecked
      simp [hchecked.not_callable]

theorem functionSpelling_eq_error_iff :
    functionSpelling name count distinct = .error fault ↔ Refused name count distinct fault := by
  have hchecked := checked_functionSpelling name count distinct
  cases h : functionSpelling name count distinct with
  | ok spelling =>
      rw [h] at hchecked
      simp only [reduceCtorEq, false_iff]
      exact fun hrefused => hrefused.not_callable hchecked.1
  | error fault' =>
      rw [h] at hchecked
      constructor
      · rintro ⟨⟩
        exact hchecked
      · intro hrefused
        rw [hchecked.unique hrefused]

/-! ## The same call by another name

Names that differ in letter case are the same chain or none at all, and the same known functions
go by them. The spelling of an unknown function is kept, so there the letter case shows in the
query. -/

/-- Checking a call in its own spelling changes nothing. -/
theorem functionSpelling_spelling (h : functionSpelling name count distinct = .ok spelling) :
    functionSpelling spelling count distinct = .ok spelling := by
  obtain ⟨hcall, rfl⟩ := functionSpelling_eq_ok_iff.mp h
  rw [functionSpelling_eq_ok_iff]
  exact ⟨hcall.canonical, (Signature.canonical_canonical name).symm⟩

/-- A known function is called alike by its name in any letter case. -/
theorem functionSpelling_congr {other : String} (h : Name.SameLetters name other)
    (hchain : Name.IsChain name) (hknown : ∃ s ∈ Signature.known, s.GoesBy name) :
    functionSpelling other count distinct = functionSpelling name count distinct := by
  have hdotted : Name.isDotted other = Name.isDotted name := h.isDotted_eq.symm
  have hfind : Signature.find? other = Signature.find? name :=
    Signature.find?_congr h.smallLetters_eq.symm
  obtain ⟨s, hs, hby⟩ := hknown
  have hs' : Signature.find? name = some s := Signature.find?_eq_some_iff.mpr ⟨hs, hby⟩
  have hname : Name.isDotted name = true := Name.isDotted_iff.mpr hchain
  rw [functionSpelling, functionSpelling, hdotted, hfind, hname, hs']
  rfl

/-- A name that no known function goes by is its own spelling. -/
theorem functionSpelling_of_unknown (hchain : Name.IsChain name)
    (hunknown : ∀ s ∈ Signature.known, ¬ s.GoesBy name) :
    functionSpelling name count distinct = .ok name := by
  rw [functionSpelling_eq_ok_iff]
  constructor
  · exact .of_unknown hchain hunknown
  · rw [Signature.canonical, Signature.find?_eq_none_iff.mpr hunknown]
    rfl

end

namespace Expr

/-! ## Calls -/

section

variable {name : String} {distinct : Bool} {args : List Expr}

theorem callOf_eq_ok_iff {e : Expr} : callOf name distinct args = .ok e ↔
    Callable name args.length distinct ∧ e = .call (Signature.canonical name) distinct args := by
  cases h : functionSpelling name args.length distinct with
  | ok spelling =>
      obtain ⟨hcall, rfl⟩ := functionSpelling_eq_ok_iff.mp h
      simp [callOf, h, Except.map, hcall, eq_comm]
  | error fault =>
      have hrefused := functionSpelling_eq_error_iff.mp h
      simp [callOf, h, Except.map, hrefused.not_callable]

theorem callOf_eq_error_iff {fault : StructureError} :
    callOf name distinct args = .error fault ↔ Refused name args.length distinct fault := by
  rw [← functionSpelling_eq_error_iff, callOf]
  cases functionSpelling name args.length distinct <;> simp [Except.map]

end

end Expr

/-- Calls of a function with the same arguments by two names that come to the same: to the same call
or the same fault if the name is that of a known function, and otherwise each to the call or to the
fault of its own name. -/
structure AlikeCalls (a b : String) (distinct : Bool) (args : List Expr) : Prop where
  known : Name.IsChain a → (∃ s ∈ Signature.known, s.GoesBy a) →
    Expr.callOf b distinct args = Expr.callOf a distinct args
  unknown : Name.IsChain a → (∀ s ∈ Signature.known, ¬ s.GoesBy a) →
    Expr.callOf a distinct args = .ok (.call a distinct args) ∧
      Expr.callOf b distinct args = .ok (.call b distinct args)
  malformed : ¬ Name.IsChain a →
    Expr.callOf a distinct args = .error (.functionName a) ∧
      Expr.callOf b distinct args = .error (.functionName b)

theorem Name.SameLetters.alikeCalls {a b : String} (h : Name.SameLetters a b) (distinct : Bool)
    (args : List Expr) : AlikeCalls a b distinct args := by
  have hchain : Name.IsChain a ↔ Name.IsChain b := by
    rw [← Name.isDotted_iff, ← Name.isDotted_iff, h.isDotted_eq]
  constructor
  · intro ha hknown
    rw [Expr.callOf, Expr.callOf, functionSpelling_congr h ha hknown]
  · intro ha hunknown
    have hunknown' : ∀ s ∈ Signature.known, ¬ s.GoesBy b := by
      intro s hs hby
      exact hunknown s hs (hby.trans h.smallLetters_eq.symm)
    rw [Expr.callOf, Expr.callOf, functionSpelling_of_unknown ha hunknown,
      functionSpelling_of_unknown (hchain.mp ha) hunknown']
    exact ⟨rfl, rfl⟩
  · intro ha
    exact ⟨Expr.callOf_eq_error_iff.mpr (.name ha),
      Expr.callOf_eq_error_iff.mpr (.name (mt hchain.mpr ha))⟩

/-! ## Functions for calls of known functions

What has to be shown of the fifteen functions is one statement about a list, which is decided for
each member. It says that the check, had it been made, would have given the same call. -/

/-- A function that makes calls with one argument, and the name and the `DISTINCT` of these
calls. -/
structure Helper where
  name : String
  distinct : Bool
  call : Expr → Expr

namespace Helper

/-- All functions that make calls with one argument. -/
def all : List Helper :=
  [ ⟨"count", false, Expr.count⟩, ⟨"count", true, Expr.countDistinct⟩,
    ⟨"collect", false, Expr.collect⟩, ⟨"collect", true, Expr.collectDistinct⟩,
    ⟨"sum", false, Expr.sum⟩, ⟨"avg", false, Expr.avg⟩, ⟨"min", false, Expr.min⟩,
    ⟨"max", false, Expr.max⟩, ⟨"size", false, Expr.size⟩, ⟨"toLower", false, Expr.toLower⟩,
    ⟨"toUpper", false, Expr.toUpper⟩, ⟨"trim", false, Expr.trim⟩, ⟨"labels", false, Expr.labels⟩,
    ⟨"type", false, Expr.relationshipType⟩, ⟨"elementId", false, Expr.elementId⟩ ]

variable {h : Helper}

theorem call_eq (hh : h ∈ all) (e : Expr) : h.call e = .call h.name h.distinct [e] := by
  have hall : ∀ h ∈ all, h.call e = .call h.name h.distinct [e] := by
    simp only [all, List.forall_mem_cons]
    repeat' constructor
    simp
  exact hall h hh

/-- A call that is made without the check is what the check gives. -/
theorem callOf_eq (hh : h ∈ all) (e : Expr) :
    Expr.callOf h.name h.distinct [e] = .ok (h.call e) := by
  have hall : ∀ h ∈ all, functionSpelling h.name 1 h.distinct = .ok h.name := by decide
  rw [call_eq hh, Expr.callOf, List.length_singleton, hall h hh]
  rfl

end Helper

/-! ## Expressions that can be made

`Expr.Constructible` has one constructor for each way of making an expression. Only calls carry a
condition, so the induction has one case with something to prove and passes the others on. -/

namespace Expr

/-- An expression that can be made: calls are made by the check or by a function for calls of a
known function, and everything else is put together freely. -/
inductive Constructible : Expr → Prop
  | var (v : Variable) : Constructible (.var v)
  | property (v : Variable) (key : String) : Constructible (.property v key)
  | param (p : Param) : Constructible (.param p)
  | literal (value : Value) : Constructible (.literal value)
  | list {items : List Expr} (h : ∀ e ∈ items, Constructible e) : Constructible (.list items)
  | map {entries : List (String × Expr)} (h : ∀ e ∈ entries, Constructible e.2) :
      Constructible (.map entries)
  | compare (op : Comparison) {left right : Expr} (hleft : Constructible left)
      (hright : Constructible right) : Constructible (.compare op left right)
  | isNull {operand : Expr} (h : Constructible operand) (negated : Bool) :
      Constructible (.isNull operand negated)
  | arith (op : Arithmetic) {left right : Expr} (hleft : Constructible left)
      (hright : Constructible right) : Constructible (.arith op left right)
  | group (op : Connective) {operands : List Expr} (h : ∀ e ∈ operands, Constructible e) :
      Constructible (.group op operands)
  | groupOf {op : Connective} {operands : List Expr} {e : Expr}
      (h : ∀ e ∈ operands, Constructible e) (he : groupOf op operands = .ok e) : Constructible e
  | extend (op : Connective) {e operand : Expr} (he : Constructible e)
      (hoperand : Constructible operand) : Constructible (e.extend op operand)
  | not {operand : Expr} (h : Constructible operand) : Constructible (.not operand)
  | callOf {name : String} {distinct : Bool} {args : List Expr} {e : Expr}
      (h : ∀ a ∈ args, Constructible a) (he : callOf name distinct args = .ok e) : Constructible e
  | helper {f : Helper} (hf : f ∈ Helper.all) {e : Expr} (he : Constructible e) :
      Constructible (f.call e)
  | coalesce {args : List Expr} {e : Expr} (h : ∀ a ∈ args, Constructible a)
      (he : coalesce args = .ok e) : Constructible e

/-- A call that there is, under the name that is its own spelling. -/
def Accepted : Expr → Prop
  | .call name distinct args => Callable name args.length distinct ∧ Signature.canonical name = name
  | _ => True

theorem every_accepted_callOf {name : String} {distinct : Bool} {args : List Expr} {e : Expr}
    (he : callOf name distinct args = .ok e) (h : ∀ a ∈ args, a.Every Accepted) :
    e.Every Accepted := by
  obtain ⟨hcall, rfl⟩ := callOf_eq_ok_iff.mp he
  rw [Every]
  exact ⟨⟨hcall.canonical, Signature.canonical_canonical name⟩, h⟩

/-- Each call in an expression that can be made is one that there is. -/
theorem every_accepted {e : Expr} (h : Constructible e) : e.Every Accepted := by
  -- only calls carry a condition
  induction h with
  | var | property | param | literal =>
      rw [Every]
      trivial
  | list _ ih | map _ ih | group _ _ ih =>
      rw [Every]
      exact ⟨trivial, ih⟩
  | compare _ _ _ ihl ihr | arith _ _ _ ihl ihr =>
      rw [Every]
      exact ⟨trivial, ihl, ihr⟩
  | isNull _ _ ih | not _ ih =>
      rw [Every]
      exact ⟨trivial, ih⟩
  | groupOf _ he ih =>
      unfold groupOf at he
      split at he
      · simp at he
      · rw [← Except.ok.inj he, Every]
        exact ⟨trivial, ih⟩
  | extend op _ _ ihe iho =>
      exact (every_extend_iff (fun _ _ => trivial) op _ _).mpr ⟨ihe, iho⟩
  | callOf _ he ih | coalesce _ he ih => exact every_accepted_callOf he ih
  | helper hf _ ih => exact every_accepted_callOf (Helper.callOf_eq hf _) (by simpa using ih)

theorem Accepted.named {e : Expr} (h : e.Accepted) : e.Named := by
  cases e with
  | call name distinct args => exact Name.isDotted_iff.mpr h.1.chain
  | _ => trivial

/-- Each call in an expression that can be made has a dotted identifier for its name. -/
theorem Constructible.every_named {e : Expr} (h : Constructible e) : e.Every Named :=
  (every_accepted h).mono fun _ => Accepted.named

/-- **Every call that can exist is one that there is.** The check accepts exactly the calls that
there are, reports what is wrong with the others, and gives back its own results. Letter case does
not matter to it, the functions for calls of known functions make what it would make, and each call
in an expression that can be made is one that it accepts. -/
theorem callOf_canonical (name : String) (distinct : Bool) (args : List Expr) :
    ((∃ e, callOf name distinct args = .ok e) ↔ Callable name args.length distinct) ∧
      (∀ fault, callOf name distinct args = .error fault ↔
        Refused name args.length distinct fault) ∧
      (∀ e, callOf name distinct args = .ok e →
        ∃ spelling, e = .call spelling distinct args ∧ callOf spelling distinct args = .ok e) ∧
      (∀ other, Name.SameLetters name other → AlikeCalls name other distinct args) ∧
      (∀ f ∈ Helper.all, ∀ e, callOf f.name f.distinct [e] = .ok (f.call e)) ∧
      (∀ es, coalesce es = callOf "coalesce" false es) ∧
      ∀ e, Constructible e → e.Every Accepted := by
  refine ⟨?_, fun fault => callOf_eq_error_iff, ?_, fun other h => h.alikeCalls distinct args,
    fun f hf => Helper.callOf_eq hf, fun es => rfl, fun e => every_accepted⟩
  · constructor
    · rintro ⟨e, he⟩
      exact (callOf_eq_ok_iff.mp he).1
    · intro hcall
      exact ⟨_, callOf_eq_ok_iff.mpr ⟨hcall, rfl⟩⟩
  · intro e he
    obtain ⟨hcall, rfl⟩ := callOf_eq_ok_iff.mp he
    refine ⟨Signature.canonical name, rfl, ?_⟩
    have hspelling := functionSpelling_spelling (functionSpelling_eq_ok_iff.mpr ⟨hcall, rfl⟩)
    rw [callOf, hspelling]
    rfl

end Expr

end GraphQuery
