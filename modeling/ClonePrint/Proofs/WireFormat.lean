import ClonePrint.Proofs.Framing

/-!
# Messages survive their way over the wire

The columns of a structure are found again in the object that was written, and a variant by
its kind. So a message whose numbers are as wide as the wire allows is read back from its
line as it was.
-/
namespace ClonePrint

namespace Json

theorem toNat?_ofNat {n most : Nat} (h : n ≤ most) : (ofNat n).toNat? most = some n := by
  simp [ofNat, toNat?, Text.readDigits?_decimal, h]

theorem toString?_ofText (s : String) : (ofText s.toList).toString? = some s := by
  simp [ofText, toString?, toText?]

theorem namedFields?_map (fields : List (String × Json)) :
    namedFields? (fields.map fun f => (some f.1.toList, f.2)) =
      some (fields.map fun f => (f.1.toList, f.2)) := by
  unfold namedFields?
  induction fields with
  | nil => rfl
  | cons field fields ih =>
      rw [List.map_cons, List.mapM_cons, ih]
      rfl

/-- No key stands twice, so it has the one value that it was given. -/
theorem valuesOf_of_mem {fields : List (String × Json)} (h : (fields.map Prod.fst).Nodup)
    {f : String × Json} (hf : f ∈ fields) :
    valuesOf f.1 (fields.map fun f => (f.1.toList, f.2)) = [f.2] := by
  have hnone {name : String} {fields : List (String × Json)} (h : name ∉ fields.map Prod.fst) :
      valuesOf name (fields.map fun f => (f.1.toList, f.2)) = [] := by
    simp only [valuesOf, List.map_eq_nil_iff, List.filter_eq_nil_iff, List.mem_map]
    rintro _ ⟨g, hg, rfl⟩ heq
    rw [beq_iff_eq, String.toList_inj] at heq
    exact h (List.mem_map.2 ⟨g, hg, heq⟩)
  induction fields with
  | nil => cases hf
  | cons g fields ih =>
      rw [List.map_cons, List.nodup_cons] at h
      rcases List.mem_cons.1 hf with rfl | hf
      · have hmore := hnone h.1
        unfold valuesOf at hmore ⊢
        rw [List.map_cons, List.filter_cons_of_pos (by simp), List.map_cons, hmore]
      · have hne : f.1 ≠ g.1 := fun heq => h.1 (List.mem_map.2 ⟨f, hf, heq⟩)
        have hmore := ih h.2 hf
        unfold valuesOf at hmore ⊢
        rw [List.map_cons, List.filter_cons_of_neg (by simpa [String.toList_inj] using Ne.symm hne),
          hmore]

/-- A structure is read back column by column. -/
theorem columns?_ofFields (fields : List (String × Json)) (h : (fields.map Prod.fst).Nodup) :
    (ofFields fields).columns? (fields.map Prod.fst) = some (fields.map fun f => some f.2) := by
  have hvalues : ∀ f ∈ fields, valuesOf f.1 (fields.map fun f => (f.1.toList, f.2)) = [f.2] :=
    fun f hf => valuesOf_of_mem h hf
  rw [ofFields, columns?, namedFields?_map, Option.bind_some, if_pos]
  · rw [List.map_map]
    congr 1
    apply List.map_congr_left
    intro f hf
    rw [Function.comp_apply, hvalues f hf, List.head?_cons]
  · rw [List.all_eq_true]
    intro name hname
    obtain ⟨f, hf, rfl⟩ := List.mem_map.1 hname
    simp [hvalues f hf]

theorem objectColumns?_ofFields (fields : List (String × Json))
    (h : (fields.map Prod.fst).Nodup) :
    (ofFields fields).objectColumns? (fields.map Prod.fst) =
      some (fields.map fun f => some f.2) :=
  columns?_ofFields fields h

theorem toList?_array {α : Type} {item : Json → Option α} {toJson : α → Json} {list : List α}
    (h : ∀ a ∈ list, item (toJson a) = some a) :
    (array (list.map toJson)).toList? item = some list := by
  induction list with
  | nil => rfl
  | cons a list ih =>
      have hmore : (list.map toJson).mapM item = some list := ih fun b hb => h b (by simp [hb])
      rw [List.map_cons, toList?, List.mapM_cons, h a (by simp), hmore]
      rfl

/-- A variant is found by its name. -/
theorem toVariant?_ofText {α : Type} (variants : List (String × α))
    (h : (variants.map Prod.fst).Nodup) {v : String × α} (hv : v ∈ variants) :
    (ofText v.1.toList).toVariant? variants = some v.2 := by
  have hfind : variants.find? (fun w => w.1.toList == v.1.toList) = some v := by
    induction variants with
    | nil => cases hv
    | cons w variants ih =>
        rw [List.map_cons, List.nodup_cons] at h
        rcases List.mem_cons.1 hv with rfl | hv
        · rw [List.find?_cons_of_pos (by simp)]
        · have hne : w.1 ≠ v.1 := fun heq => h.1 (List.mem_map.2 ⟨v, hv, heq.symm⟩)
          rw [List.find?_cons_of_neg (by simpa [String.toList_inj] using hne), ih h.2 hv]
  exact congrArg (Option.map Prod.snd) hfind

end Json

/-- The lines of a report are numbers of 32 bits. -/
def Fingerprint.Fits (f : Fingerprint) : Prop :=
  f.lineStart ≤ Json.maxWord ∧ f.lineEnd ≤ Json.maxWord

/-- A chunk counts chunks and lines with 32 bits and bytes with 64 bits. -/
structure Chunk.Fits (c : Chunk) : Prop where
  id : c.id ≤ Json.maxWord
  byteOffset : c.byteOffset ≤ Json.maxLong
  lineOffset : c.lineOffset ≤ Json.maxWord

instance (c : Chunk) : Decidable c.Fits :=
  decidable_of_iff
    (c.id ≤ Json.maxWord ∧ c.byteOffset ≤ Json.maxLong ∧ c.lineOffset ≤ Json.maxWord)
    ⟨fun h => ⟨h.1, h.2.1, h.2.2⟩, fun h => ⟨h.id, h.byteOffset, h.lineOffset⟩⟩

/-- Jobs are counted with 64 bits. -/
def Dispatch.Fits : Dispatch → Prop
  | .job queued => queued.payload.Fits ∧ queued.id ≤ Json.maxLong
  | .noJob | .close => True

instance : DecidablePred Dispatch.Fits
  | .job queued => inferInstanceAs (Decidable (queued.payload.Fits ∧ queued.id ≤ Json.maxLong))
  | .noJob | .close => isTrue trivial

def Reply.Fits : Reply → Prop
  | .result _ found => ∀ f ∈ found, f.Fits
  | .remainder chunk => chunk.Fits
  | .log .. | .idle => True

namespace Wire

/-- A value that is written as an object and read back from it. -/
structure Faithful {α : Type} [Encoded α] (a : α) : Prop where
  plain : (Encoded.toJson a).Plain
  isObject : ∃ field fields, Encoded.toJson a = .ofFields (field :: fields)
  read : Encoded.ofJson? (Encoded.toJson a) = some a

section
variable {α : Type} [Encoded α] {a : α}

theorem Faithful.newline_notMem_write (h : Faithful a) : '\n' ∉ (Encoded.toJson a).write :=
  h.plain.newline_notMem_write

theorem Faithful.trimEnd_write (h : Faithful a) :
    Text.trimEnd (Encoded.toJson a).write = (Encoded.toJson a).write := by
  obtain ⟨field, fields, hobject⟩ := h.isObject
  obtain ⟨inner, hwrite⟩ := Json.exists_write_ofFields_eq field fields
  rw [hobject, hwrite, ← List.cons_append, Text.trimEnd_concat (by decide)]

theorem Faithful.isAllBlank_write (h : Faithful a) :
    Text.isAllBlank (Encoded.toJson a).write = false := by
  obtain ⟨field, fields, hobject⟩ := h.isObject
  obtain ⟨inner, hwrite⟩ := Json.exists_write_ofFields_eq field fields
  have hbrace : Text.isBlank '{' = false := by decide
  rw [hobject, hwrite, Text.isAllBlank, List.all_cons, hbrace, Bool.false_and]

/-- A line is read back without what ends it, -/
theorem Faithful.decodeLine?_write (h : Faithful a) :
    decodeLine? (Encoded.toJson a).write = some a := by
  rw [decodeLine?, h.trimEnd_write, Json.read?_write h.plain, Option.bind_some, h.read]

/-- and with what ends it. -/
theorem Faithful.decodeLine?_encodeLine (h : Faithful a) :
    decodeLine? (encodeLine a) = some a := by
  have hend : Text.isBlank '\n' = true := by decide
  rw [decodeLine?, encodeLine, Text.trimEnd_concat_of_isBlank hend, h.trimEnd_write,
    Json.read?_write h.plain, Option.bind_some, h.read]

/-- The lines of several values are found again in the bytes that were sent. -/
theorem decodeLines_encodeLine {values : List α} (h : ∀ a ∈ values, Faithful a) :
    Worker.decodeLines (Text.bytes (values.flatMap encodeLine)) =
      (values.map fun a => (Encoded.toJson a).write).map some := by
  have hlines := @Worker.decodeLines_bytes (values.map fun a => (Encoded.toJson a).write)
  rw [List.flatMap_map] at hlines
  apply hlines
  intro t ht
  obtain ⟨a, ha, rfl⟩ := List.mem_map.1 ht
  exact (h a ha).newline_notMem_write

end

theorem plain_fingerprintJson (f : Fingerprint) : (fingerprintJson f).Plain := by
  apply Json.Plain.object
  simp [Json.Plain.text, Json.Plain.number]

theorem fingerprint?_fingerprintJson {f : Fingerprint} (h : f.Fits) :
    fingerprint? (fingerprintJson f) = some f := by
  have hcolumns := Json.columns?_ofFields
    [("hash", .ofText f.hash.toList), ("fileName", .ofText f.file.toList),
      ("functionName", .ofText f.function.toList), ("lineStart", .ofNat f.lineStart),
      ("lineEnd", .ofNat f.lineEnd)] (by simp)
  simp only [List.map_cons, List.map_nil] at hcolumns
  simp [fingerprint?, fingerprintJson, hcolumns, Json.toString?_ofText, Json.toNat?_ofNat h.1,
    Json.toNat?_ofNat h.2]

theorem plain_chunkJson (c : Chunk) : (chunkJson c).Plain := by
  apply Json.Plain.object
  simp [Json.Plain.text, Json.Plain.number, Json.Plain.bool]

theorem chunk?_chunkJson {c : Chunk} (h : c.Fits) : chunk? (chunkJson c) = some c := by
  have hcolumns := Json.columns?_ofFields
    [("fileName", .ofText c.file.toList), ("text", .ofText c.text),
      ("chunkId", .ofNat c.id), ("byteOffset", .ofNat c.byteOffset),
      ("lineOffset", .ofNat c.lineOffset), ("openStart", .bool c.openStart),
      ("openEnd", .bool c.openEnd), ("partial", .bool c.provisional)] (by simp)
  have htext : (Json.ofText c.text).toText? = some c.text := rfl
  simp only [List.map_cons, List.map_nil] at hcolumns
  simp [chunk?, chunkJson, hcolumns, htext, Json.toString?_ofText, Json.toNat?_ofNat h.id,
    Json.toNat?_ofNat h.byteOffset, Json.toNat?_ofNat h.lineOffset, Json.toBool?]

theorem plain_jobJson (job : Job Chunk) : (jobJson job).Plain := by
  apply Json.Plain.object
  simp [Json.Plain.number, plain_chunkJson]

theorem job?_jobJson {job : Job Chunk} (h : (Dispatch.job job).Fits) :
    job? (jobJson job) = some job := by
  have hcolumns := Json.columns?_ofFields
    [("payload", chunkJson job.payload), ("jobId", .ofNat job.id)] (by simp)
  simp only [List.map_cons, List.map_nil] at hcolumns
  simp [job?, jobJson, hcolumns, chunk?_chunkJson h.1, Json.toNat?_ofNat h.2]

theorem plain_bareJson (kind : String) : (bareJson kind).Plain := by
  apply Json.Plain.object
  simp [Json.Plain.text]

theorem plain_variantJson (kind : String) {content : Json} (h : content.Plain) :
    (variantJson kind content).Plain := by
  apply Json.Plain.object
  simp [Json.Plain.text, h]

theorem toPair?_bareJson (kind : String) :
    (bareJson kind).toPair? = some (.ofText kind.toList, none) := by
  rw [bareJson, Json.ofFields, Json.toPair?, Json.namedFields?_map, Option.bind_some]
  simp [Json.pairOf?]

theorem toPair?_variantJson (kind : String) (content : Json) :
    (variantJson kind content).toPair? = some (.ofText kind.toList, some content) := by
  rw [variantJson, Json.ofFields, Json.toPair?, Json.namedFields?_map, Option.bind_some]
  simp [Json.pairOf?]

theorem dispatch?_dispatchJson {what : Dispatch} (h : what.Fits) :
    dispatch? (dispatchJson what) = some what := by
  have hkind := fun v => Json.toVariant?_ofText (v := v)
    [("JOB", DispatchKind.job), ("NO_JOB", .noJob), ("CLOSE", .close)] (by decide)
  cases what with
  | job job =>
      have hjob := hkind ("JOB", .job) (by simp)
      simp only [dispatch?, dispatchJson, toPair?_variantJson, Option.bind_eq_bind,
        Option.bind_some, hjob, job?_jobJson h]
      rfl
  | noJob =>
      have hnoJob := hkind ("NO_JOB", .noJob) (by simp)
      simp only [dispatch?, dispatchJson, toPair?_bareJson, Option.bind_eq_bind,
        Option.bind_some, hnoJob]
      rfl
  | close =>
      have hclose := hkind ("CLOSE", .close) (by simp)
      simp only [dispatch?, dispatchJson, toPair?_bareJson, Option.bind_eq_bind,
        Option.bind_some, hclose]
      rfl

theorem toVariant?_levelName (level : LogLevel) :
    (Json.ofText (levelName level).toList).toVariant? levels = some level := by
  have hmem : (levelName level, level) ∈ levels := by
    cases level <;> simp [levels]
  exact Json.toVariant?_ofText levels (by decide) hmem

theorem plain_dispatchJson (what : Dispatch) : (dispatchJson what).Plain := by
  cases what with
  | job job => exact plain_variantJson _ (plain_jobJson job)
  | noJob | close => exact plain_bareJson _

theorem plain_replyJson (reply : Reply) : (replyJson reply).Plain := by
  cases reply with
  | result file found =>
      apply plain_variantJson
      apply Json.Plain.object
      have hfound : (Json.array (found.map fingerprintJson)).Plain := by
        apply Json.Plain.array
        simp [plain_fingerprintJson]
      simp [Json.Plain.text, hfound]
  | remainder chunk => exact plain_variantJson _ (plain_chunkJson chunk)
  | log level line =>
      apply plain_variantJson
      apply Json.Plain.object
      simp [Json.Plain.text]
  | idle => exact plain_bareJson _

theorem result?_eq {file : String} {found : List Fingerprint} (h : ∀ f ∈ found, f.Fits) :
    result? (.ofFields [("fileName", .ofText file.toList),
      ("records", .array (found.map fingerprintJson))]) = some (.result file found) := by
  have hcolumns := Json.objectColumns?_ofFields
    [("fileName", .ofText file.toList),
      ("records", .array (found.map fingerprintJson))] (by simp)
  have hfound := Json.toList?_array fun f hf => fingerprint?_fingerprintJson (h f hf)
  simp only [List.map_cons, List.map_nil] at hcolumns
  simp [result?, hcolumns, Json.toString?_ofText, hfound]

theorem log?_eq (level : LogLevel) (line : String) :
    log? (.ofFields [("level", .ofText (levelName level).toList),
      ("line", .ofText line.toList)]) = some (.log level line) := by
  have hcolumns := Json.objectColumns?_ofFields
    [("level", .ofText (levelName level).toList), ("line", .ofText line.toList)] (by simp)
  simp only [List.map_cons, List.map_nil] at hcolumns
  simp [log?, hcolumns, toVariant?_levelName, Json.toString?_ofText]

theorem reply?_replyJson {reply : Reply} (h : reply.Fits) :
    reply? (replyJson reply) = some reply := by
  have hkind := fun v => Json.toVariant?_ofText (v := v)
    [("RESULT", ReplyKind.result), ("REMAINDER", .remainder), ("LOG", .log), ("IDLE", .idle)]
    (by decide)
  cases reply with
  | result file found =>
      have hresult := hkind ("RESULT", .result) (by simp)
      simp only [reply?, replyJson, toPair?_variantJson, Option.bind_eq_bind, Option.bind_some,
        hresult, result?_eq h]
  | remainder chunk =>
      have hremainder := hkind ("REMAINDER", .remainder) (by simp)
      simp only [reply?, replyJson, toPair?_variantJson, Option.bind_eq_bind, Option.bind_some,
        hremainder, chunk?_chunkJson h]
      rfl
  | log level line =>
      have hlog := hkind ("LOG", .log) (by simp)
      simp only [reply?, replyJson, toPair?_variantJson, Option.bind_eq_bind, Option.bind_some,
        hlog, log?_eq]
  | idle =>
      have hidle := hkind ("IDLE", .idle) (by simp)
      simp only [reply?, replyJson, toPair?_bareJson, Option.bind_eq_bind, Option.bind_some, hidle]
      rfl

theorem faithful_fingerprint {f : Fingerprint} (h : f.Fits) : Faithful f where
  plain := plain_fingerprintJson f
  isObject := ⟨_, _, rfl⟩
  read := fingerprint?_fingerprintJson h

theorem faithful_chunk {c : Chunk} (h : c.Fits) : Faithful c where
  plain := plain_chunkJson c
  isObject := ⟨_, _, rfl⟩
  read := chunk?_chunkJson h

theorem faithful_dispatch {what : Dispatch} (h : what.Fits) : Faithful what where
  plain := plain_dispatchJson what
  isObject := by cases what <;> exact ⟨_, _, rfl⟩
  read := dispatch?_dispatchJson h

theorem faithful_reply {reply : Reply} (h : reply.Fits) : Faithful reply where
  plain := plain_replyJson reply
  isObject := by cases reply <;> exact ⟨_, _, rfl⟩
  read := reply?_replyJson h

end Wire

end ClonePrint
