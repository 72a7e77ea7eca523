/-
  File:      ClassScript/Proofs/Report/RoundTrip.lean
  Subject:   A report and its JSON form.

  A report that is written and read again is the same report. The other way
  round, a value that can be read may say more than a report does: it may have
  fields of other names, and a suggestion that is `null`. Writing what was read
  gives the value without these (`Report.pruned`).

  What a reader finds is said for each kind of record by one equivalence
  (`ofJson?_eq_some_iff`), and both directions follow from it.

  * `Location.ofJson?_eq_some_iff`, `suggestionOfJson?_eq_some_iff`,
    `Diagnostic.ofJson?_eq_some_iff`, `Report.ofJson?_eq_some_iff`;
  * `Report.Fits`: the numbers of a report have 64 bits;
  * `Report.json_round_trip`: both directions.
-/
import ClassScript.Report
import ClassScript.Proofs.Json

namespace ClassScript

open Json

variable {v : Json} {fields : List (String × Json)}

/-! ## 1. What the readers find -/

/-- The numbers of a place have 64 bits. -/
def Location.Fits (l : Location) : Prop :=
  l.line < 18446744073709551616 ∧ l.column < 18446744073709551616

theorem Location.ofJson?_eq_some_iff {l : Location} :
    Location.ofJson? v = some l ↔
      ∃ fields, v.fieldsAs? ["file", "line", "column"] = some fields ∧
        fieldOf? fields "file" = some (.text l.file.text) ∧
        fieldOf? fields "line" = some (.count l.line) ∧
        fieldOf? fields "column" = some (.count l.column) ∧ l.Fits := by
  obtain ⟨⟨file⟩, line, column⟩ := l
  unfold Location.ofJson?
  simp only [Option.bind_eq_bind, Option.bind_eq_some_iff, Option.pure_def, Option.some.injEq,
    toText?_eq_some_iff, toCount?_eq_some_iff, Location.mk.injEq, FilePath.mk.injEq]
  constructor
  · rintro ⟨fields, hfields, _, hfile, _, rfl, _, hline, _, ⟨rfl, hl⟩, _, hcolumn, _, ⟨rfl, hc⟩,
      rfl, rfl, rfl⟩
    exact ⟨fields, hfields, hfile, hline, hcolumn, hl, hc⟩
  · rintro ⟨fields, hfields, hfile, hline, hcolumn, hl, hc⟩
    exact ⟨fields, hfields, _, hfile, _, rfl, _, hline, _, ⟨rfl, hl⟩, _, hcolumn, _, ⟨rfl, hc⟩,
      rfl, rfl, rfl⟩

/-- The field of a suggestion, or that there is none, as a reader takes it. -/
inductive ReadsSuggestion : Option Json → Option String → Prop where
  | missing : ReadsSuggestion none none
  | null : ReadsSuggestion (some .null) none
  | given {value : Json} {fields : List (String × Json)} {advice : String}
      (hfields : value.fieldsAs? ["message"] = some fields)
      (hmessage : fieldOf? fields "message" = some (.text advice)) :
      ReadsSuggestion (some value) (some advice)

theorem suggestionOfJson?_eq_some_iff {field : Option Json} {advice : Option String} :
    suggestionOfJson? field = some advice ↔ ReadsSuggestion field advice := by
  constructor
  · intro h
    unfold suggestionOfJson? at h
    split at h
    · obtain rfl := Option.some_inj.mp h
      exact .missing
    · obtain rfl := Option.some_inj.mp h
      exact .null
    · simp only [Option.bind_eq_bind, Option.bind_eq_some_iff, Option.pure_def,
        Option.some.injEq, toText?_eq_some_iff] at h
      obtain ⟨fields, hfields, _, hmessage, advice, rfl, rfl⟩ := h
      exact .given hfields hmessage
  · intro h
    cases h with
    | missing => rfl
    | null => rfl
    | @given value fields advice hfields hmessage =>
      have hread : suggestionOfJson? (some value) = (do
          let fields ← value.fieldsAs? ["message"]
          let advice ← (← fieldOf? fields "message").toText?
          return some advice) := by
        cases value with
        | null => cases hfields
        | _ => rfl
      rw [hread, hfields]
      simp [hmessage, toText?]

theorem Diagnostic.ofJson?_eq_some_iff {d : Diagnostic} :
    Diagnostic.ofJson? v = some d ↔
      ∃ fields, v.fieldsAs? ["code", "rule", "location", "message", "suggestion"] = some fields ∧
        fieldOf? fields "code" = some (.text d.code) ∧
        fieldOf? fields "rule" = some (.text d.rule) ∧
        (∃ place, fieldOf? fields "location" = some place ∧
          Location.ofJson? place = some d.location) ∧
        fieldOf? fields "message" = some (.text d.message) ∧
        ReadsSuggestion (fieldOf? fields "suggestion") d.suggestion := by
  obtain ⟨code, rule, location, message, suggestion⟩ := d
  unfold Diagnostic.ofJson?
  simp only [Option.bind_eq_bind, Option.bind_eq_some_iff, Option.pure_def, Option.some.injEq,
    toText?_eq_some_iff, suggestionOfJson?_eq_some_iff, Diagnostic.mk.injEq]
  constructor
  · rintro ⟨fields, hfields, _, hcode, _, rfl, _, hrule, _, rfl, place, hplace, _, hlocation, _,
      hmessage, _, rfl, _, hsuggestion, rfl, rfl, rfl, rfl, rfl⟩
    exact ⟨fields, hfields, hcode, hrule, ⟨place, hplace, hlocation⟩, hmessage, hsuggestion⟩
  · rintro ⟨fields, hfields, hcode, hrule, ⟨place, hplace, hlocation⟩, hmessage, hsuggestion⟩
    exact ⟨fields, hfields, _, hcode, _, rfl, _, hrule, _, rfl, place, hplace, _, hlocation, _,
      hmessage, _, rfl, _, hsuggestion, rfl, rfl, rfl, rfl, rfl⟩

/-- The texts of paths and the paths of texts. -/
theorem map_text_eq_iff {texts : List String} {paths : List FilePath} :
    texts.map FilePath.mk = paths ↔ texts = paths.map (·.text) := by
  constructor
  · rintro rfl
    rw [List.map_map]
    exact (List.map_id _).symm
  · rintro rfl
    rw [List.map_map]
    exact List.map_id _

theorem Report.ofJson?_eq_some_iff {r : Report} :
    Report.ofJson? v = some r ↔
      ∃ fields, v.fieldsAs? ["diagnostics", "units_checked", "accepted"] = some fields ∧
        (∃ items, fieldOf? fields "diagnostics" = some (.list items) ∧
          List.Forall₂ (fun item d => Diagnostic.ofJson? item = some d) items r.diagnostics) ∧
        (fieldOf? fields "units_checked" = some (.count r.unitsChecked) ∧
          r.unitsChecked < 18446744073709551616) ∧
        fieldOf? fields "accepted" = some (.texts (r.accepted.map (·.text))) := by
  obtain ⟨diagnostics, unitsChecked, accepted⟩ := r
  unfold Report.ofJson?
  simp only [Option.bind_eq_bind, Option.bind_eq_some_iff, Option.pure_def, Option.some.injEq,
    toItems?_eq_some_iff, toCount?_eq_some_iff, mapM_eq_some_iff (f := Diagnostic.ofJson?),
    mapM_toText?_eq_some_iff, Report.mk.injEq, map_text_eq_iff, texts]
  constructor
  · rintro ⟨fields, hfields, _, hitems, items, rfl, _, hread, _, hunits, _, ⟨rfl, hn⟩, _,
      haccepted, _, rfl, _, rfl, rfl, rfl, rfl⟩
    exact ⟨fields, hfields, ⟨items, hitems, hread⟩, ⟨hunits, hn⟩, haccepted⟩
  · rintro ⟨fields, hfields, ⟨items, hitems, hread⟩, ⟨hunits, hn⟩, haccepted⟩
    exact ⟨fields, hfields, _, hitems, items, rfl, _, hread, _, hunits, _, ⟨rfl, hn⟩, _,
      haccepted, _, rfl, _, rfl, rfl, rfl, rfl⟩

/-! ## 2. What is written can be read -/

/-- The numbers of a report have 64 bits. -/
structure Report.Fits (r : Report) : Prop where
  unitsChecked : r.unitsChecked < 18446744073709551616
  places : ∀ d ∈ r.diagnostics, d.location.Fits

theorem Location.ofJson?_toJson {l : Location} (h : l.Fits) :
    Location.ofJson? l.toJson = some l :=
  Location.ofJson?_eq_some_iff.mpr ⟨_, rfl, rfl, rfl, rfl, h⟩

theorem readsSuggestion_toJson (advice : Option String) :
    ReadsSuggestion (advice.map suggestionToJson) advice := by
  cases advice with
  | none => exact .missing
  | some advice => exact .given rfl rfl

theorem Diagnostic.ofJson?_toJson {d : Diagnostic} (h : d.location.Fits) :
    Diagnostic.ofJson? d.toJson = some d := by
  have hsuggestion := readsSuggestion_toJson d.suggestion
  refine Diagnostic.ofJson?_eq_some_iff.mpr
    ⟨_, rfl, rfl, rfl, ⟨_, rfl, Location.ofJson?_toJson h⟩, rfl, ?_⟩
  cases hs : d.suggestion with
  | none => rwa [hs] at hsuggestion
  | some advice => rwa [hs] at hsuggestion

theorem Report.ofJson?_toJson {r : Report} (h : r.Fits) : Report.ofJson? r.toJson = some r := by
  refine Report.ofJson?_eq_some_iff.mpr ⟨_, rfl, ⟨_, rfl, ?_⟩, ⟨rfl, h.unitsChecked⟩, rfl⟩
  exact List.forall₂_map_left_iff.mpr
    (List.forall₂_same.mpr fun d hd => Diagnostic.ofJson?_toJson (h.places d hd))

theorem Diagnostic.fits_of_ofJson? {d : Diagnostic} (h : Diagnostic.ofJson? v = some d) :
    d.location.Fits := by
  obtain ⟨_, -, -, -, ⟨place, -, hlocation⟩, -⟩ := Diagnostic.ofJson?_eq_some_iff.mp h
  obtain ⟨_, -, -, -, -, hfits⟩ := Location.ofJson?_eq_some_iff.mp hlocation
  exact hfits

/-- What holds of everything that is related to something holds of a list that is related to
    another one. -/
theorem forall_right_of_forall₂ {α β : Type} {R : α → β → Prop} {p : β → Prop} {as : List α}
    {bs : List β} (hR : ∀ a b, R a b → p b) (h : List.Forall₂ R as bs) : ∀ b ∈ bs, p b := by
  induction h with
  | nil => exact fun b hb => absurd hb List.not_mem_nil
  | cons hab _ ih => exact List.forall_mem_cons.mpr ⟨hR _ _ hab, ih⟩

/-- The numbers that are read have 64 bits. -/
theorem Report.fits_of_ofJson? {r : Report} (h : Report.ofJson? v = some r) : r.Fits := by
  obtain ⟨fields, -, ⟨items, -, hread⟩, ⟨-, hunits⟩, -⟩ := Report.ofJson?_eq_some_iff.mp h
  exact ⟨hunits, forall_right_of_forall₂ (fun _ _ => Diagnostic.fits_of_ofJson?) hread⟩

/-! ## 3. What is read is what was written -/

/-- The fields of a place. -/
def Location.pruned : Json → Json := keepFields [("file", some), ("line", some), ("column", some)]

/-- The fields of a suggestion; `null` is none. -/
def prunedSuggestion : Json → Option Json
  | .null => none
  | value => some (keepFields [("message", some)] value)

/-- The fields of a diagnostic, without other fields and without a suggestion that is `null`. -/
def Diagnostic.pruned : Json → Json :=
  keepFields [("code", some), ("rule", some), ("location", some ∘ Location.pruned),
    ("message", some), ("suggestion", prunedSuggestion)]

/-- A value without the fields that are none of a report, and without suggestions that are
    `null`. -/
def Report.pruned : Json → Json :=
  keepFields [("diagnostics", some ∘ mapItems Diagnostic.pruned), ("units_checked", some),
    ("accepted", some)]

/-- A diagnostic's records are given as records, by the names of their fields. -/
structure Diagnostic.HasRecords (v : Json) : Prop where
  diagnostic : v.isRecord = true
  place : ∀ place, v.field? "location" = some place → place.isRecord = true
  suggestion : ∀ advice, v.field? "suggestion" = some advice →
    advice = .null ∨ advice.isRecord = true

/-- A report's records are given as records, by the names of their fields. -/
structure Report.HasRecords (v : Json) : Prop where
  report : v.isRecord = true
  diagnostics : ∀ items, v.field? "diagnostics" = some (.list items) →
    ∀ item ∈ items, Diagnostic.HasRecords item

theorem Location.alike_pruned {l : Location} (hproper : v.Proper) (hrecord : v.isRecord = true)
    (h : Location.ofJson? v = some l) : Alike l.toJson (Location.pruned v) := by
  obtain ⟨fields, rfl⟩ := isRecord_iff.mp hrecord
  obtain ⟨_, hfields, hfile, hline, hcolumn, -⟩ := Location.ofJson?_eq_some_iff.mp h
  obtain rfl := Option.some_inj.mp hfields
  rw [fieldOf?_eq_lookup] at hfile hline hcolumn
  cases hproper with
  | record names values =>
    refine Alike.of_fields ?_ (perm_keptFields (by decide) names).symm
    simp [hfile, hline, hcolumn, Alike.refl]

theorem alike_prunedSuggestion {field : Option Json} {advice : Option String}
    (hproper : ∀ value, field = some value → value.Proper)
    (hrecord : ∀ value, field = some value → value = .null ∨ value.isRecord = true)
    (h : ReadsSuggestion field advice) :
    List.Forall₂ (fun f g : String × Json => f.1 = g.1 ∧ Alike f.2 g.2)
      (advice.map fun a => ("suggestion", suggestionToJson a)).toList
      ((field.bind prunedSuggestion).map (Prod.mk "suggestion")).toList := by
  cases h with
  | missing => exact .nil
  | null => exact .nil
  | @given value fields advice hfields hmessage =>
    have hnull : value ≠ .null := by
      rintro rfl
      cases hfields
    obtain ⟨fs, rfl⟩ := isRecord_iff.mp ((hrecord value rfl).resolve_left hnull)
    obtain rfl := Option.some_inj.mp hfields
    rw [fieldOf?_eq_lookup] at hmessage
    cases hproper _ rfl with
    | record names values =>
      refine .cons ⟨rfl, Alike.of_fields ?_ (perm_keptFields (by decide) names).symm⟩ .nil
      simp [hmessage, Alike.refl]

theorem Diagnostic.alike_pruned {d : Diagnostic} (hproper : v.Proper) (hrecord : HasRecords v)
    (h : Diagnostic.ofJson? v = some d) : Alike d.toJson (Diagnostic.pruned v) := by
  obtain ⟨fields, rfl⟩ := isRecord_iff.mp hrecord.diagnostic
  obtain ⟨_, hfields, hcode, hrule, ⟨place, hplace, hlocation⟩, hmessage, hsuggestion⟩ :=
    Diagnostic.ofJson?_eq_some_iff.mp h
  obtain rfl := Option.some_inj.mp hfields
  have hplaceRecord : place.isRecord = true := hrecord.place place hplace
  have hadviceRecord : ∀ value, fields.lookup "suggestion" = some value →
      value = .null ∨ value.isRecord = true := by
    rw [← fieldOf?_eq_lookup]
    exact hrecord.suggestion
  rw [fieldOf?_eq_lookup] at hcode hrule hplace hmessage hsuggestion
  cases hproper with
  | record names values =>
    have hvalue : ∀ name value, fields.lookup name = some value → value.Proper :=
      fun name value hlookup => values _ ((lookup_eq_some_iff_mem names).mp hlookup)
    refine Alike.of_fields ?_ (perm_keptFields (by decide) names).symm
    -- The suggestion may be missing on both sides, so it is split off.
    show List.Forall₂ _ ([_, _, _, _] ++ _) (([_, _, _, _] ++ [_]).filterMap _)
    rw [List.filterMap_append]
    refine List.rel_append ?_ ?_
    · have hplaceAlike := Location.alike_pruned (hvalue _ _ hplace) hplaceRecord hlocation
      simp [hcode, hrule, hplace, hmessage, hplaceAlike, Alike.refl]
    · exact alike_prunedSuggestion (hvalue "suggestion") hadviceRecord hsuggestion

/-- **What is written of a report that was read** is the value without what is none of a report. -/
theorem Report.alike_pruned {r : Report} (hproper : v.Proper) (hrecord : HasRecords v)
    (h : Report.ofJson? v = some r) : Alike r.toJson (Report.pruned v) := by
  obtain ⟨fields, rfl⟩ := isRecord_iff.mp hrecord.report
  obtain ⟨_, hfields, ⟨items, hitems, hread⟩, ⟨hunits, -⟩, haccepted⟩ :=
    Report.ofJson?_eq_some_iff.mp h
  obtain rfl := Option.some_inj.mp hfields
  have hrecords : ∀ item ∈ items, Diagnostic.HasRecords item := hrecord.diagnostics items hitems
  rw [fieldOf?_eq_lookup] at hitems hunits haccepted
  cases hproper with
  | record names values =>
    have hitemsProper : (Json.list items).Proper :=
      values _ ((lookup_eq_some_iff_mem names).mp hitems)
    have hdiagnostics : Alike (.list (r.diagnostics.map Diagnostic.toJson))
        (.list (items.map Diagnostic.pruned)) := by
      cases hitemsProper with
      | list hproper =>
        have hboth := (List.forall₂_and_left _ _).mpr
          ⟨fun item hi => And.intro (hproper item hi) (hrecords item hi), hread⟩
        refine .list (List.forall₂_map_left_iff.mpr (List.forall₂_map_right_iff.mpr ?_))
        refine .flip (hboth.imp fun item d hd => ?_)
        exact Diagnostic.alike_pruned hd.1.1 hd.1.2 hd.2
    refine Alike.of_fields ?_ (perm_keptFields (by decide) names).symm
    simp [hitems, hunits, haccepted, mapItems, hdiagnostics, Alike.refl]

/-! ## 4. Both directions -/

/-- **Reports and their JSON form.** A report whose numbers have 64 bits is read as it was
    written, and no other report is. A value whose records are maps, given by the names of their
    fields, and that can be read as a report is written again without the fields that are none of
    a report, and without suggestions that are `null`. Writing what was read a second time changes
    nothing more. -/
theorem Report.json_round_trip :
    (∀ r : Report, ofJson? r.toJson = some r ↔ r.Fits) ∧
      (∀ v : Json, v.Proper → HasRecords v → ∀ r, ofJson? v = some r →
        Alike r.toJson (pruned v)) ∧
      ∀ v : Json, (((ofJson? v).map toJson).bind fun w => (ofJson? w).map toJson) =
        (ofJson? v).map toJson := by
  refine ⟨fun r => ⟨fits_of_ofJson?, ofJson?_toJson⟩,
    fun v hproper hrecord r h => alike_pruned hproper hrecord h, fun v => ?_⟩
  cases h : ofJson? v with
  | none => rfl
  | some r =>
    show (ofJson? r.toJson).map toJson = some r.toJson
    rw [ofJson?_toJson (fits_of_ofJson? h)]
    rfl

/-- A report's value with its fields in another order, with fields of other names, and with a
    suggestion that is `null`. -/
def strewn : Json :=
  .record [("note", .null), ("accepted", .texts ["A.javats"]), ("units_checked", .count 1),
    ("diagnostics", .list
      [.record [("suggestion", .null), ("rule", .text "x"), ("code", .text "JT001"),
        ("message", .text "m"),
        ("location", .record [("column", .count 2), ("end", .null), ("line", .count 1),
          ("file", .text "A.javats")])]])]

theorem strewn_proper : strewn.Proper := by
  have hplace : (Json.record [("column", .count 2), ("end", .null), ("line", .count 1),
      ("file", .text "A.javats")]).Proper := by
    refine .record (by decide) ?_
    simp only [List.forall_mem_cons]
    exact ⟨.whole _, .null, .whole _, .text _, List.forall_mem_nil _⟩
  have hdiagnostic : (Json.record [("suggestion", .null), ("rule", .text "x"),
      ("code", .text "JT001"), ("message", .text "m"), ("location", .record
        [("column", .count 2), ("end", .null), ("line", .count 1),
          ("file", .text "A.javats")])]).Proper := by
    refine .record (by decide) ?_
    simp only [List.forall_mem_cons]
    exact ⟨.null, .text _, .text _, .text _, hplace, List.forall_mem_nil _⟩
  refine .record (by decide) ?_
  simp only [List.forall_mem_cons]
  exact ⟨.null, .list (List.forall_mem_singleton.mpr (.text _)), .whole _,
    .list (List.forall_mem_singleton.mpr hdiagnostic), List.forall_mem_nil _⟩

theorem strewn_hasRecords : Report.HasRecords strewn where
  report := rfl
  diagnostics items hitems := by
    obtain rfl := Json.list.inj (Option.some_inj.mp hitems)
    refine List.forall_mem_singleton.mpr ⟨rfl, fun place hplace => ?_, fun advice hadvice => ?_⟩
    · obtain rfl := Option.some_inj.mp hplace
      rfl
    · exact .inl (Option.some_inj.mp hadvice).symm

/-- It is read as a report with one diagnostic, and written again without what it says besides. -/
theorem Report.json_round_trip_strewn :
    let r : Report :=
      ⟨[⟨"JT001", "x", ⟨⟨"A.javats"⟩, 1, 2⟩, "m", none⟩], 1, [⟨"A.javats"⟩]⟩
    strewn.Proper ∧ HasRecords strewn ∧ ofJson? strewn = some r ∧
      Alike r.toJson (.record [("accepted", .texts ["A.javats"]), ("units_checked", .count 1),
        ("diagnostics", .list
          [.record [("rule", .text "x"), ("code", .text "JT001"), ("message", .text "m"),
            ("location", .record [("column", .count 2), ("line", .count 1),
              ("file", .text "A.javats")])]])]) ∧
      ofJson? r.toJson = some r := by
  intro r
  have hread : ofJson? strewn = some r := rfl
  obtain ⟨hback, hagain, -⟩ := json_round_trip
  refine ⟨strewn_proper, strewn_hasRecords, hread,
    hagain strewn strewn_proper strewn_hasRecords r hread, (hback r).mpr ⟨?_, ?_⟩⟩
  · decide
  · exact List.forall_mem_singleton.mpr ⟨by decide, by decide⟩

end ClassScript
