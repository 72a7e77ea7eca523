/-
  File:      ClassScript/Proofs/Json.lean
  Subject:   Records as maps, and parts of them.

  A record is a map from names to values: no name stands for two fields, and
  the order of the fields says nothing. What is read from a record is looked up
  by name, so of a record the fields with certain names can be kept, in the
  order in which they are there or in the order of the names (`perm_keptFields`).

  * `Json.Proper`: the values whose records are maps;
  * `Json.Alike`: values that differ in the order of fields only;
  * `Json.keepFields`: a record with the fields of certain names;
  * `toText?_eq_some_iff`, `toCount?_eq_some_iff`, `mapM_eq_some_iff`: what is read
    from a text, from a number and from a list.
-/
import Mathlib.Data.List.Forall2
import ClassScript.Diagnostic

namespace ClassScript

/-! ## 1. Values -/

namespace Json

/-- A value whose records are maps: no two fields of a record have one name. -/
inductive Proper : Json → Prop where
  | null : Proper .null
  | bool (b : Bool) : Proper (.bool b)
  | whole (n : Int) : Proper (.whole n)
  | fraction (digits : Int) (places : Nat) : Proper (.fraction digits places)
  | text (s : String) : Proper (.text s)
  | list {items : List Json} (values : ∀ v ∈ items, Proper v) : Proper (.list items)
  | record {fields : List (String × Json)} (names : (fields.map Prod.fst).Nodup)
      (values : ∀ f ∈ fields, Proper f.2) : Proper (.record fields)

/-- Values that differ in the order of the fields of records only. -/
inductive Alike : Json → Json → Prop where
  | refl (v : Json) : Alike v v
  | list {items others : List Json} (values : List.Forall₂ Alike items others) :
      Alike (.list items) (.list others)
  | record {fields moved others : List (String × Json)}
      (names : fields.map Prod.fst = moved.map Prod.fst)
      (values : List.Forall₂ Alike (fields.map Prod.snd) (moved.map Prod.snd))
      (order : moved.Perm others) : Alike (.record fields) (.record others)

/-- Records with alike fields under the same names, in whichever order those of the second one
    are. -/
theorem Alike.of_fields {fields moved others : List (String × Json)}
    (h : List.Forall₂ (fun f g => f.1 = g.1 ∧ Alike f.2 g.2) fields moved)
    (order : moved.Perm others) : Alike (.record fields) (.record others) := by
  refine .record ?_ ?_ order
  · exact List.forall₂_eq_eq_eq ▸ (List.forall₂_map_left_iff.mpr
      (List.forall₂_map_right_iff.mpr (h.imp fun _ _ hfg => hfg.1)))
  · rw [List.forall₂_map_left_iff, List.forall₂_map_right_iff]
    exact h.imp fun _ _ hfg => hfg.2

/-- The value is a record. -/
def isRecord : Json → Bool
  | .record _ => true
  | _ => false

theorem isRecord_iff {v : Json} : v.isRecord = true ↔ ∃ fields, v = .record fields := by
  cases v <;> simp [isRecord]

/-- The fields whose names are in `keep`, each changed as `keep` says, or dropped. -/
def keptFields (keep : List (String × (Json → Option Json))) (fields : List (String × Json)) :
    List (String × Json) :=
  fields.filterMap fun f => (keep.lookup f.1).bind fun change => (change f.2).map (Prod.mk f.1)

/-- A record with the fields whose names are in `keep`, each changed as `keep` says, or dropped. -/
def keepFields (keep : List (String × (Json → Option Json))) : Json → Json
  | .record fields => .record (keptFields keep fields)
  | value => value

/-- A list with all items changed. -/
def mapItems (change : Json → Json) : Json → Json
  | .list items => .list (items.map change)
  | value => value

/-! ## 2. Reading texts, numbers and lists -/

theorem toText?_eq_some_iff {v : Json} {s : String} : v.toText? = some s ↔ v = .text s := by
  cases v <;> simp [toText?]

theorem toItems?_eq_some_iff {v : Json} {items : List Json} :
    v.toItems? = some items ↔ v = .list items := by
  cases v <;> simp [toItems?]

/-- The numbers that can be read are those of 64 bits. -/
theorem toCount?_eq_some_iff {v : Json} {n : Nat} :
    v.toCount? = some n ↔ v = .count n ∧ n < 18446744073709551616 := by
  cases v with
  | whole m =>
    simp only [toCount?, count, whole.injEq, Option.ite_none_right_eq_some, Option.some.injEq,
      Int.ofNat_eq_natCast]
    constructor
    · intro h
      omega
    · intro h
      obtain ⟨rfl, hn⟩ := h
      omega
  | _ => simp [toCount?, count]

end Json

/-- A list is read item by item. -/
theorem mapM_eq_some_iff {α β : Type} {f : α → Option β} {as : List α} {bs : List β} :
    as.mapM f = some bs ↔ List.Forall₂ (fun a b => f a = some b) as bs := by
  induction as generalizing bs with
  | nil =>
    rw [List.mapM_nil, List.forall₂_nil_left_iff]
    exact Option.some_inj.trans eq_comm
  | cons a as ih =>
    rw [List.mapM_cons, List.forall₂_cons_left_iff]
    simp only [Option.bind_eq_bind, Option.bind_eq_some_iff, Option.pure_def, Option.some.injEq, ih]
    constructor
    · rintro ⟨b, hb, rest, hrest, rfl⟩
      exact ⟨b, rest, hb, hrest, rfl⟩
    · rintro ⟨b, rest, hb, hrest, rfl⟩
      exact ⟨b, hb, rest, hrest, rfl⟩

theorem mapM_toText?_eq_some_iff {items : List Json} {texts : List String} :
    items.mapM Json.toText? = some texts ↔ items = texts.map .text := by
  rw [mapM_eq_some_iff]
  simp only [Json.toText?_eq_some_iff]
  rw [← List.forall₂_map_right_iff (R := (· = ·)), List.forall₂_eq_eq_eq]

/-! ## 3. Looking up names -/

section Lookup

variable {α : Type} {entries : List (String × α)} {name : String} {a : α}

theorem lookup_cons_eq (name key : String) (a : α) (entries : List (String × α)) :
    ((key, a) :: entries).lookup name = if name = key then some a else entries.lookup name := by
  rw [List.lookup_cons]
  by_cases h : name = key
  · rw [if_pos h, beq_iff_eq.mpr h]
  · rw [if_neg h, beq_eq_false_iff_ne.mpr h]

/-- Where no name stands twice, looking up a name finds what stands under it. -/
theorem lookup_eq_some_iff_mem (hnames : (entries.map Prod.fst).Nodup) :
    entries.lookup name = some a ↔ (name, a) ∈ entries := by
  induction entries with
  | nil => simp
  | cons entry entries ih =>
    obtain ⟨key, b⟩ := entry
    rw [List.map_cons, List.nodup_cons] at hnames
    obtain ⟨hkey, hrest⟩ := hnames
    rw [lookup_cons_eq, List.mem_cons, Prod.mk.injEq]
    by_cases h : name = key
    · have habsent : (name, a) ∉ entries := fun hmem =>
        hkey (List.mem_map.mpr ⟨(name, a), hmem, h⟩)
      rw [if_pos h, or_iff_left habsent, and_iff_right h, Option.some_inj]
      exact eq_comm
    · rw [if_neg h, ih hrest, or_iff_right fun hhead => h hhead.1]

/-- Entries that are picked from others under their own names. -/
theorem nodup_filterMap_names {β : Type} {pick : String × α → Option β}
    (h : (entries.map Prod.fst).Nodup) :
    (entries.filterMap fun e => (pick e).map (Prod.mk e.1)).Nodup := by
  refine (List.pairwise_map.mp h).filterMap _ fun e f hne b hb c hc hbc => hne ?_
  obtain ⟨_, -, rfl⟩ := Option.map_eq_some_iff.mp hb
  obtain ⟨_, -, rfl⟩ := Option.map_eq_some_iff.mp hc
  exact (Prod.mk.inj hbc).1

end Lookup

theorem fieldOf?_eq_lookup (fields : List (String × Json)) (name : String) :
    fieldOf? fields name = fields.lookup name := by
  unfold fieldOf?
  induction fields with
  | nil => rfl
  | cons field fields ih =>
    obtain ⟨key, v⟩ := field
    rw [lookup_cons_eq, List.find?_cons]
    by_cases h : name = key
    · rw [if_pos h, beq_iff_eq.mpr h.symm]
      rfl
    · rw [if_neg h, beq_eq_false_iff_ne.mpr (Ne.symm h)]
      exact ih

/-- **The fields that are kept**, in the order of the names instead of their own. -/
theorem perm_keptFields {keep : List (String × (Json → Option Json))}
    {fields : List (String × Json)} (hkeep : (keep.map Prod.fst).Nodup)
    (hfields : (fields.map Prod.fst).Nodup) :
    (Json.keptFields keep fields).Perm
      (keep.filterMap fun k => ((fields.lookup k.1).bind k.2).map (Prod.mk k.1)) := by
  have hpick : Json.keptFields keep fields = fields.filterMap fun f =>
      ((keep.lookup f.1).bind fun change => change f.2).map (Prod.mk f.1) := by
    unfold Json.keptFields
    simp only [Option.map_bind]
    rfl
  rw [hpick]
  refine (List.perm_ext_iff_of_nodup (nodup_filterMap_names hfields)
    (nodup_filterMap_names hkeep)).mpr fun f => ?_
  obtain ⟨name, v⟩ := f
  simp only [List.mem_filterMap, Option.map_eq_some_iff, Option.bind_eq_some_iff,
    lookup_eq_some_iff_mem hkeep, lookup_eq_some_iff_mem hfields, Prod.mk.injEq, Prod.exists]
  constructor
  · rintro ⟨_, old, hold, _, ⟨change, hchange, hv⟩, rfl, rfl⟩
    exact ⟨_, change, hchange, _, ⟨old, hold, hv⟩, rfl, rfl⟩
  · rintro ⟨_, change, hchange, _, ⟨old, hold, hv⟩, rfl, rfl⟩
    exact ⟨_, old, hold, _, ⟨change, hchange, hv⟩, rfl, rfl⟩

end ClassScript
