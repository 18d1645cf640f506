import GraphQuery.Proofs.Number.Nearest
import GraphQuery.Proofs.Value.Entries
import GraphQuery.Proofs.Value.Support

set_option autoImplicit false

/-! # From values to JSON and back

A value that has a JSON form is read back from it as it was. The other way round a JSON value is
brought into a normal form (`Json.canonical`): the members of every object in ascending order of
their keys, and every integer beyond 64 bits with a sign as the nearest floating-point number. The
normal form has the members of the JSON value, only in another order (`Json.Reorders`), and numbers
within the range as they were.
-/

namespace GraphQuery

open Number

/-! ## JSON values

A reader of JSON texts gives values that are `Json.Proper`: it keeps one member for each key, and
an integer that 64 bits cannot hold is a floating-point number from the start. -/

namespace Json

@[elab_as_elim, induction_eliminator]
theorem induct {motive : Json → Prop} (null : motive .null) (boolean : ∀ b, motive (.boolean b))
    (integer : ∀ n, motive (.integer n)) (float : ∀ x h, motive (.float x h))
    (string : ∀ s, motive (.string s))
    (array : ∀ items, (∀ j ∈ items, motive j) → motive (.array items))
    (object : ∀ members, (∀ m ∈ members, motive m.2) → motive (.object members)) (j : Json) :
    motive j := by
  refine @Json.rec motive (fun js => ∀ j ∈ js, motive j) (fun ms => ∀ m ∈ ms, motive m.2)
    (fun m => motive m.2) null boolean integer float string array object ?_ ?_ ?_ ?_ ?_ j
  · simp
  · intro j js hj hjs
    exact List.forall_mem_cons.mpr ⟨hj, hjs⟩
  · simp
  · intro m ms hm hms
    exact List.forall_mem_cons.mpr ⟨hm, hms⟩
  · exact fun _ _ h => h

/-- A condition that holds of a JSON value and of every JSON value in it. -/
def Every (p : Json → Prop) : Json → Prop
  | .array items => p (.array items) ∧ ∀ j ∈ items, j.Every p
  | .object members => p (.object members) ∧ ∀ m ∈ members, m.2.Every p
  | .null => p .null
  | .boolean b => p (.boolean b)
  | .integer n => p (.integer n)
  | .float x h => p (.float x h)
  | .string s => p (.string s)
decreasing_by
  · have := List.sizeOf_lt_of_mem ‹_›
    simp_wf
    omega
  · have := sizeOf_value_lt_of_mem ‹_›
    simp_wf
    omega

/-- What JSON values are: a key is in an object once, and an integer has 64 bits, with a sign if it
is negative. -/
def Proper : Json → Prop
  | .integer n => Int64.minValue.toInt ≤ n ∧ n < UInt64.size
  | .object members => (members.map Prod.fst).Nodup
  | .null | .boolean _ | .float _ _ | .string _ | .array _ => True

instance (j : Json) : Decidable j.Proper :=
  match j with
  | .integer n => inferInstanceAs (Decidable (Int64.minValue.toInt ≤ n ∧ n < UInt64.size))
  | .object members => inferInstanceAs (Decidable (members.map Prod.fst).Nodup)
  | .null | .boolean _ | .float _ _ | .string _ | .array _ => isTrue trivial

def InRange : Json → Prop
  | .integer n => Int64.minValue.toInt ≤ n ∧ n ≤ Int64.maxValue.toInt
  | .null | .boolean _ | .float _ _ | .string _ | .array _ | .object _ => True

instance (j : Json) : Decidable j.InRange :=
  match j with
  | .integer n => inferInstanceAs (Decidable (Int64.minValue.toInt ≤ n ∧ n ≤ Int64.maxValue.toInt))
  | .null | .boolean _ | .float _ _ | .string _ | .array _ | .object _ => isTrue trivial

/-- A JSON value with the members of objects in it in another order. -/
inductive Reorders : Json → Json → Prop
  | refl (j : Json) : Reorders j j
  | trans {i j k : Json} : Reorders i j → Reorders j k → Reorders i k
  | members {ms ns : List (String × Json)} : ms.Perm ns → Reorders (.object ms) (.object ns)
  | item (before after : List Json) {i j : Json} :
      Reorders i j → Reorders (.array (before ++ i :: after)) (.array (before ++ j :: after))
  | member (before after : List (String × Json)) (key : String) {i j : Json} :
      Reorders i j →
        Reorders (.object (before ++ (key, i) :: after)) (.object (before ++ (key, j) :: after))

/-! ## Rounding and sorting

The normal form does two things at once. They are taken apart here, so that the loss of an
integer is stated apart from the order of members: `Json.rounded` keeps the order, and
`Json.Reorders` relates two orders with nothing else changed. -/

/-- An integer beyond 64 bits with a sign as a floating-point number. No integer of a JSON value is
too large for that. -/
def roundInteger (n : Int) : Json :=
  if Int64.minValue.toInt ≤ n ∧ n ≤ Int64.maxValue.toInt then .integer n
  else if h : (Binary64.ofInt n).isFinite then .float (Binary64.ofInt n) h
  else .integer n

/-- A JSON value with every integer in it rounded, and nothing else changed. -/
def rounded : Json → Json
  | .integer n => roundInteger n
  | .array items => .array (items.map rounded)
  | .object members => .object (members.map fun m => (m.1, m.2.rounded))
  | .null => .null
  | .boolean b => .boolean b
  | .float x h => .float x h
  | .string s => .string s
decreasing_by
  · have := List.sizeOf_lt_of_mem ‹_›
    simp_wf
    omega
  · have := sizeOf_value_lt_of_mem ‹_›
    simp_wf
    omega

/-- A JSON value with every integer in it rounded and every object in it in order. -/
def canonical : Json → Json
  | .integer n => roundInteger n
  | .array items => .array (items.map canonical)
  | .object members => .object (Value.sortEntries (members.map fun m => (m.1, m.2.canonical)))
  | .null => .null
  | .boolean b => .boolean b
  | .float x h => .float x h
  | .string s => .string s
decreasing_by
  · have := List.sizeOf_lt_of_mem ‹_›
    simp_wf
    omega
  · have := sizeOf_value_lt_of_mem ‹_›
    simp_wf
    omega

/-! ## Reordering -/

theorem Reorders.array {α : Type} {f g : α → Json} {xs : List α}
    (h : ∀ x ∈ xs, (f x).Reorders (g x)) : Reorders (.array (xs.map f)) (.array (xs.map g)) := by
  -- one item after the other, with those before it as they will be
  have hbehind : ∀ before : List Json,
      Reorders (.array (before ++ xs.map f)) (.array (before ++ xs.map g)) := by
    induction xs with
    | nil => exact fun _ => .refl _
    | cons x xs ih =>
        intro before
        obtain ⟨hx, hxs⟩ := List.forall_mem_cons.mp h
        have hrest := ih hxs (before ++ [g x])
        rw [List.append_assoc, List.append_assoc] at hrest
        exact .trans (.item before (xs.map f) hx) hrest
  exact hbehind []

theorem Reorders.object {α : Type} {f g : α → Json} {xs : List (String × α)}
    (h : ∀ x ∈ xs, (f x.2).Reorders (g x.2)) :
    Reorders (.object (xs.map fun x => (x.1, f x.2))) (.object (xs.map fun x => (x.1, g x.2))) := by
  have hbehind : ∀ before : List (String × Json),
      Reorders (.object (before ++ xs.map fun x => (x.1, f x.2)))
        (.object (before ++ xs.map fun x => (x.1, g x.2))) := by
    induction xs with
    | nil => exact fun _ => .refl _
    | cons x xs ih =>
        intro before
        obtain ⟨hx, hxs⟩ := List.forall_mem_cons.mp h
        have hrest := ih hxs (before ++ [(x.1, g x.2)])
        rw [List.append_assoc, List.append_assoc] at hrest
        exact .trans (.member before (xs.map fun x : String × α => (x.1, f x.2)) x.1 hx) hrest
  exact hbehind []

theorem map_fst_map {α β : Type} (f : α → β) (xs : List (String × α)) :
    (xs.map fun x => (x.1, f x.2)).map Prod.fst = xs.map Prod.fst := by
  rw [List.map_map]
  rfl

/-- **The normal form has the same members in another order**, and integers rounded. -/
theorem rounded_reorders {j : Json} (h : j.Every Proper) : j.rounded.Reorders j.canonical := by
  induction j with
  | null | boolean b | integer n | float x hx | string s =>
      rw [rounded, canonical]
      exact .refl _
  | array items ih =>
      rw [Every] at h
      rw [rounded, canonical]
      exact .array fun j hj => ih j hj (h.2 j hj)
  | object members ih =>
      rw [Every] at h
      rw [rounded, canonical]
      have hkeys : ((members.map fun m => (m.1, m.2.canonical)).map Prod.fst).Nodup := by
        rw [map_fst_map]
        exact h.1
      exact .trans (.object fun m hm => ih m hm (h.2 m hm))
        (.members (Value.sortEntries_perm hkeys).symm)

theorem roundInteger_eq_self {n : Int} (h : (integer n).InRange) : roundInteger n = .integer n := by
  have hn : Int64.minValue.toInt ≤ n ∧ n ≤ Int64.maxValue.toInt := h
  rw [roundInteger, if_pos hn]

theorem rounded_eq_self {j : Json} (h : j.Every InRange) : j.rounded = j := by
  induction j with
  | null | boolean b | float x hx | string s => rw [rounded]
  | integer n =>
      rw [Every] at h
      rw [rounded, roundInteger_eq_self h]
  | array items ih =>
      rw [Every] at h
      rw [rounded, List.map_congr_left fun j hj => ih j hj (h.2 j hj), List.map_id']
  | object members ih =>
      rw [Every] at h
      have hmembers : (members.map fun m => (m.1, m.2.rounded)) = members.map id :=
        List.map_congr_left fun m hm => Prod.ext rfl (ih m hm (h.2 m hm))
      rw [rounded, hmembers, List.map_id]

/-- Integers of 64 bits without a sign become the nearest floating-point number where they do not
fit 64 bits with one. -/
theorem exists_roundInteger {n : Int} (hlow : Int64.maxValue.toInt < n) (hhigh : n < UInt64.size) :
    ∃ x h, roundInteger n = .float x h ∧ x.IsNearest n := by
  have hbits : n.natAbs < 2 ^ 64 := by
    have hsize : (UInt64.size : Int) = 2 ^ 64 := rfl
    have hmax : Int64.maxValue.toInt = 2 ^ 63 - 1 := rfl
    omega
  have hfinite := Binary64.isFinite_ofInt hbits
  refine ⟨Binary64.ofInt n, hfinite, ?_, Binary64.isNearest_ofInt hbits⟩
  rw [roundInteger, if_neg (by omega), dif_pos hfinite]

end Json

/-! ## From values and back

The order of the entries is part of a value, so a value is only read back if its maps are in
order. All values are that are built by `Value.ofEntries` or come from JSON. -/

namespace Value

open Json (Every Proper Reorders InRange roundInteger)

theorem ofJsonItems_eq_map (js : List Json) : ofJsonItems js = js.map ofJson := by
  induction js with
  | nil => rfl
  | cons j js ih => rw [ofJsonItems, ih, List.map_cons]

theorem ofJsonMembers_eq_map (ms : List (String × Json)) :
    ofJsonMembers ms = ms.map fun m => (m.1, ofJson m.2) := by
  induction ms with
  | nil => rfl
  | cons m ms ih => rw [ofJsonMembers, ih, List.map_cons]

theorem ofJsonItems_toJsonItems {context : String} {items : List Value}
    (ih : ∀ v ∈ items, ∀ j, v.toJson context = .ok j → ofJson j = v) {js : List Json}
    (h : toJsonItems context items = .ok js) : ofJsonItems js = items := by
  induction items generalizing js with
  | nil =>
      obtain rfl := Except.ok.inj h
      rfl
  | cons v vs ihs =>
      obtain ⟨hv, hvs⟩ := List.forall_mem_cons.mp ih
      rw [toJsonItems] at h
      cases hfirst : v.toJson context with
      | error e => simp [hfirst] at h
      | ok j =>
          cases hrest : toJsonItems context vs with
          | error e => simp [hfirst, hrest, Except.map] at h
          | ok js' =>
              simp only [hfirst, hrest, Except.map, Except.ok.injEq] at h
              rw [← h, ofJsonItems, hv j hfirst, ihs hvs hrest]

theorem ofJsonMembers_toJsonEntries {context : String} {entries : List (String × Value)}
    (ih : ∀ e ∈ entries, ∀ j, e.2.toJson context = .ok j → ofJson j = e.2)
    {ms : List (String × Json)} (h : toJsonEntries context entries = .ok ms) :
    ofJsonMembers ms = entries := by
  rw [toJsonEntries_eq] at h
  cases hvalues : toJsonItems context (entries.map Prod.snd) with
  | error e => simp [hvalues, Except.map] at h
  | ok js =>
      rw [hvalues] at h
      obtain rfl := Except.ok.inj h
      have hback := ofJsonItems_toJsonItems (List.forall_mem_map.mpr ih) hvalues
      rw [ofJsonItems_eq_map] at hback
      -- the values come back, and the keys were not touched
      calc ofJsonMembers ((entries.map Prod.fst).zip js)
          = (entries.map Prod.fst).zip (js.map ofJson) := by
            rw [ofJsonMembers_eq_map, List.zip_map_right]
            rfl
        _ = (entries.map Prod.fst).zip (entries.map Prod.snd) := by rw [hback]
        _ = entries := by rw [List.zip_map', List.map_id']

/-- **A value is read back from its JSON form.** -/
theorem ofJson_toJson {v : Value} (hv : v.Ordered) {context : String} {j : Json}
    (h : v.toJson context = .ok j) : ofJson j = v := by
  induction v generalizing j with
  | null | boolean b | string s =>
      obtain rfl := Except.ok.inj h
      rfl
  | integer n =>
      obtain rfl := Except.ok.inj h
      rw [ofJson, ofInteger, if_pos ⟨n.minValue_le_toInt, n.toInt_le⟩, Int64.ofInt_toInt]
  | float x =>
      rw [toJson] at h
      by_cases hx : x.isFinite = true
      · rw [dif_pos hx] at h
        obtain rfl := Except.ok.inj h
        rfl
      · rw [dif_neg hx] at h
        simp at h
  | list items ih =>
      rw [Ordered] at hv
      rw [toJson] at h
      cases hitems : toJsonItems context items with
      | error e => simp [hitems, Except.map] at h
      | ok js =>
          rw [hitems] at h
          obtain rfl := Except.ok.inj h
          rw [ofJson, ofJsonItems_toJsonItems (fun v hmem j hj => ih v hmem (hv v hmem) hj) hitems]
  | map entries ih =>
      rw [Ordered] at hv
      rw [toJson] at h
      cases hentries : toJsonEntries context entries with
      | error e => simp [hentries, Except.map] at h
      | ok ms =>
          rw [hentries] at h
          obtain rfl := Except.ok.inj h
          -- the entries are in order already, so sorting them changes nothing
          rw [ofJson, ofEntries,
            ofJsonMembers_toJsonEntries (fun e hmem j hj => ih e hmem (hv.2 e hmem) hj) hentries,
            sortEntries_eq_self hv.1]
  | bytes data => simp [toJson] at h

/-! ## From JSON and back

Sorting members and turning them into values can be done in either order, as sorting looks at
keys only. With different keys no member is lost by it. -/

theorem toJsonItems_map {α : Type} {context : String} {f : α → Value} {g : α → Json} {xs : List α}
    (h : ∀ x ∈ xs, (f x).toJson context = .ok (g x)) :
    toJsonItems context (xs.map f) = .ok (xs.map g) := by
  induction xs with
  | nil => rfl
  | cons x xs ih =>
      obtain ⟨hx, hxs⟩ := List.forall_mem_cons.mp h
      rw [List.map_cons, toJsonItems, hx, ih hxs]
      rfl

theorem toJsonEntries_map {α : Type} {context : String} {f : α → Value} {g : α → Json}
    {xs : List (String × α)} (h : ∀ x ∈ xs, (f x.2).toJson context = .ok (g x.2)) :
    toJsonEntries context (xs.map fun x => (x.1, f x.2)) =
      .ok (xs.map fun x => (x.1, g x.2)) := by
  have hvalues : toJsonItems context ((xs.map fun x => (x.1, f x.2)).map Prod.snd) =
      .ok (xs.map fun x => g x.2) := by
    rw [List.map_map]
    exact toJsonItems_map h
  rw [toJsonEntries_eq, Json.map_fst_map, hvalues, ← List.zip_map']
  rfl

theorem toJson_ofInteger {n : Int} (h : (Json.integer n).Proper) (context : String) :
    (ofInteger n).toJson context = .ok (roundInteger n) := by
  unfold ofInteger roundInteger
  by_cases hn : Int64.minValue.toInt ≤ n ∧ n ≤ Int64.maxValue.toInt
  · have hmax : Int64.maxValue.toInt = 2 ^ 63 - 1 := rfl
    rw [if_pos hn, if_pos hn, toJson, Int64.toInt_ofInt_of_le hn.1 (by omega)]
  · have hbits : n.natAbs < 2 ^ 64 := by
      have hsize : (UInt64.size : Int) = 2 ^ 64 := rfl
      have hmin : Int64.minValue.toInt = -2 ^ 63 := rfl
      have hrange : Int64.minValue.toInt ≤ n ∧ n < UInt64.size := h
      omega
    have hfinite := Binary64.isFinite_ofInt hbits
    rw [if_neg hn, if_neg hn, toJson, dif_pos hfinite, dif_pos hfinite]

/-- **The value of a JSON value has a JSON form, which is the normal form.** -/
theorem toJson_ofJson {j : Json} (h : j.Every Proper) (context : String) :
    (ofJson j).toJson context = .ok j.canonical := by
  induction j with
  | null | boolean b | string s => rw [Json.canonical]; rfl
  | integer n =>
      rw [Every] at h
      rw [ofJson, Json.canonical]
      exact toJson_ofInteger h context
  | float x hx => rw [ofJson, Json.canonical, toJson, dif_pos hx]
  | array items ih =>
      rw [Every] at h
      rw [ofJson, Json.canonical, ofJsonItems_eq_map, toJson,
        toJsonItems_map fun j hj => ih j hj (h.2 j hj)]
      rfl
  | object members ih =>
      rw [Every] at h
      -- sorting comes to the same before and after the members are turned into values
      have hsorted :
          ∀ m ∈ sortEntries members, (ofJson m.2).toJson context = .ok m.2.canonical := by
        intro m hm
        have hmem := (sortEntries_perm h.1).mem_iff.mp hm
        exact ih m hmem (h.2 m hmem)
      rw [ofJson, Json.canonical, ofJsonMembers_eq_map, ofEntries, sortEntries_map, sortEntries_map,
        toJson, toJsonEntries_map hsorted]
      rfl

theorem ordered_ofJson {j : Json} (h : j.Every Proper) : (ofJson j).Ordered := by
  induction j with
  | null | boolean b | float x hx | string s => rw [ofJson, Ordered]; trivial
  | integer n =>
      rw [ofJson, ofInteger]
      split <;> rw [Ordered] <;> trivial
  | array items ih =>
      rw [Every] at h
      rw [ofJson, ofJsonItems_eq_map, Ordered, List.forall_mem_map]
      exact fun j hj => ih j hj (h.2 j hj)
  | object members ih =>
      rw [Every] at h
      rw [ofJson, ofJsonMembers_eq_map, ofEntries, Ordered]
      refine ⟨ascending_sortEntries _, ?_⟩
      rw [sortEntries_map, List.forall_mem_map]
      intro m hm
      have hmem := (sortEntries_perm h.1).mem_iff.mp hm
      exact ih m hmem (h.2 m hmem)

/-- The order of the members of objects does not matter. -/
theorem ofJson_eq_of_reorders {i j : Json} (h : i.Reorders j) (hi : i.Every Proper) :
    j.Every Proper ∧ ofJson j = ofJson i := by
  induction h with
  | refl j => exact ⟨hi, rfl⟩
  | trans _ _ ih ih' =>
      obtain ⟨hj, heq⟩ := ih hi
      obtain ⟨hk, heq'⟩ := ih' hj
      exact ⟨hk, heq'.trans heq⟩
  | @members ms ns hperm =>
      rw [Every] at hi
      refine ⟨?_, ?_⟩
      · rw [Every]
        exact ⟨(hperm.map Prod.fst).nodup_iff.mp hi.1, fun m hm => hi.2 m (hperm.mem_iff.mpr hm)⟩
      · -- with different keys the sorted entries do not depend on the order of the members
        have hkeys : ((ms.map fun m => (m.1, ofJson m.2)).map Prod.fst).Nodup := by
          rw [Json.map_fst_map]
          exact hi.1
        rw [ofJson, ofJson, ofJsonMembers_eq_map, ofJsonMembers_eq_map, ofEntries, ofEntries,
          sortEntries_eq_of_perm hkeys (hperm.map _)]
  | item before after _ ih =>
      rw [Every, List.forall_mem_append, List.forall_mem_cons] at hi
      obtain ⟨hj, heq⟩ := ih hi.2.2.1
      refine ⟨?_, ?_⟩
      · rw [Every, List.forall_mem_append, List.forall_mem_cons]
        exact ⟨trivial, hi.2.1, hj, hi.2.2.2⟩
      · rw [ofJson, ofJson, ofJsonItems_eq_map, ofJsonItems_eq_map, List.map_append,
          List.map_append, List.map_cons, List.map_cons, heq]
  | member before after key _ ih =>
      rw [Every, List.forall_mem_append, List.forall_mem_cons] at hi
      obtain ⟨hj, heq⟩ := ih hi.2.2.1
      have hkeys := hi.1
      rw [Proper, List.map_append, List.map_cons] at hkeys
      refine ⟨?_, ?_⟩
      · rw [Every, Proper, List.forall_mem_append, List.forall_mem_cons, List.map_append,
          List.map_cons]
        exact ⟨hkeys, hi.2.1, hj, hi.2.2.2⟩
      · rw [ofJson, ofJson, ofJsonMembers_eq_map, ofJsonMembers_eq_map, List.map_append,
          List.map_append, List.map_cons, List.map_cons, heq]

/-- **Values and JSON values are turned into each other without loss.** A value that has a JSON form
is read back from it. Of a JSON value the order of the members of objects does not matter, and its
value has a JSON form that is read back as the same value: the JSON value with the members of
objects in another order, and with the integers beyond 64 bits with a sign, but nothing else, as the
nearest floating-point numbers. -/
theorem json_roundTrip :
    (∀ (v : Value) (context : String) (j : Json),
      v.Ordered → v.toJson context = .ok j → ofJson j = v) ∧
    (∀ j : Json, j.Every Proper →
      (∀ j', j.Reorders j' → ofJson j' = ofJson j) ∧
      ∃ j', (∀ context, (ofJson j).toJson context = .ok j') ∧ ofJson j' = ofJson j ∧
        j.rounded.Reorders j' ∧ (j.Every InRange → j.Reorders j')) ∧
    ∀ n : Int, (Json.integer n).Proper →
      ((Json.integer n).InRange → roundInteger n = .integer n) ∧
      (¬(Json.integer n).InRange → ∃ x h, roundInteger n = .float x h ∧ x.IsNearest n) := by
  refine ⟨fun v context j hv h => ofJson_toJson hv h, ?_, ?_⟩
  · intro j hj
    refine ⟨fun j' h => (ofJson_eq_of_reorders h hj).2, j.canonical, toJson_ofJson hj, ?_,
      Json.rounded_reorders hj, ?_⟩
    · exact ofJson_toJson (ordered_ofJson hj) (toJson_ofJson hj "")
    · intro hrange
      have hreorders := Json.rounded_reorders hj
      rwa [Json.rounded_eq_self hrange] at hreorders
  · intro n hn
    refine ⟨Json.roundInteger_eq_self, fun hrange => Json.exists_roundInteger ?_ hn.2⟩
    exact Int.not_le.mp fun hle => hrange ⟨hn.1, hle⟩

/-- A map with an integer and a whole floating-point number comes back, and an object with its keys
out of order and the least integer that 64 bits with a sign cannot hold is read like the one with
its keys in order. -/
theorem json_roundTrip_map :
    ofJson (.object [("age", .integer 3), ("sizes", .array [.float ⟨0x4000000000000000⟩ rfl])]) =
      .map [("age", .integer 3), ("sizes", .list [.float ⟨0x4000000000000000⟩])] ∧
    ofJson (.object [("age", .null), ("id", .integer 9223372036854775808)]) =
      ofJson (.object [("id", .integer 9223372036854775808), ("age", .null)]) ∧
    ∃ x h, roundInteger 9223372036854775808 = .float x h ∧ x.IsNearest 9223372036854775808 := by
  have hv :
      (map [("age", .integer 3), ("sizes", .list [.float ⟨0x4000000000000000⟩])]).Ordered := by
    have hkeys : "age" < "sizes" := String.lt_iff_toList_lt.mpr (by decide)
    rw [Ordered]
    exact ⟨List.pairwise_pair.mpr hkeys, by simp [Ordered]⟩
  have hj : (Json.object [("id", .integer 9223372036854775808), ("age", .null)]).Every Proper := by
    simp [Every, Proper]
  refine ⟨json_roundTrip.1 _ "" _ hv rfl, (json_roundTrip.2.1 _ hj).1 _ ?_, ?_⟩
  · exact .members (.swap _ _ [])
  · exact (json_roundTrip.2.2 _ (by decide)).2 (by decide)

end Value

end GraphQuery
