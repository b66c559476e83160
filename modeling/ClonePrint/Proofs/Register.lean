import Mathlib.Algebra.GroupWithZero.Nat
import Mathlib.Algebra.Order.BigOperators.Group.List
import Mathlib.Algebra.Order.Group.Nat
import Mathlib.Data.List.Forall2
import ClonePrint.Session

/-!
# The books of a session

A session writes down the name of every file beside putting the file into a backlog, so what
it reports is as true as the two copies agree. They part only where files are lost: a run that
fails has emptied backlogs, and a parser that is replaced takes its backlog with it, but the
names stay until a run succeeds. While nothing is lost, the names are those of the files that
wait, and a run reports the files that it takes.
-/
namespace ClonePrint

variable {σ : Type}

/-- The file is written in the language. -/
def SourceFile.isIn (language : Language) (f : SourceFile) : Bool :=
  Language.ofPath? f.name = some language

namespace Session

def waiting (s : Session σ) : Nat := (s.backlogs.map Backlog.size).sum

/-- A way to parse backlogs that takes all of their files. -/
structure Way (σ : Type) where
  parse : Parse σ
  empties : ∀ b, (parse b).memory.files = []
  keeps : ∀ b, (parse b).memory.parser = b.parser

/-- In batches, one file after the other. -/
def Way.inOrder (batch : Nat) : Way σ := ⟨Backlog.parse batch, fun _ => rfl, fun _ => rfl⟩

/-- Through a pool. -/
def Way.pooled (threads batch limit : Nat) (counterOf : Language → JobCounter := fun _ => {}) :
    Way σ where
  parse b := b.parseParallel threads batch limit (counterOf b.parser.language)
  empties b := by
    unfold Backlog.parseParallel
    split
    · rename_i hempty
      exact List.isEmpty_iff.1 hempty
    · dsimp only
      split <;> rfl
  keeps b := by
    unfold Backlog.parseParallel
    split
    · rfl
    · dsimp only
      split <;> rfl

/-- A session runs its backlogs through pools, -/
theorem run_eq (s : Session σ) (counterOf : Language → JobCounter) : s.run counterOf =
    s.runWith (Way.pooled s.settings.threadCount s.settings.batchSize s.settings.chunkSize
      counterOf).parse :=
  rfl

/-- or in order. -/
theorem runInOrder_eq (s : Session σ) :
    s.runInOrder = s.runWith (Way.inOrder s.settings.batchSize).parse := rfl

/-- What is done to a session. -/
inductive Deed (σ : Type) where
  | add (file : SourceFile)
  | withParser (parser : Parser σ) (memory : σ)
  | run (way : Way σ)

/-- A session, the files that it accepted since its last run that succeeded, and how many of
them its backlogs have lost. -/
structure Register (σ : Type) where
  session : Session σ
  accepted : List SourceFile := []
  lost : Nat := 0

def Register.after (r : Register σ) : Deed σ → Register σ
  | .add file =>
      match r.session.add? file with
      | none => r
      | some session => { r with session, accepted := r.accepted ++ [file] }
  | .withParser parser memory =>
      let session := r.session.withParser parser memory
      { r with session, lost := r.lost + (r.session.waiting - session.waiting) }
  | .run way =>
      let answer := r.session.runWith way.parse
      match answer.value with
      | .ok _ => { session := answer.memory }
      | .error _ =>
          { r with
            session := answer.memory
            lost := r.lost + (r.session.waiting - answer.memory.waiting) }

def Register.afterAll (r : Register σ) (deeds : List (Deed σ)) : Register σ :=
  deeds.foldl Register.after r

section
variable {way : Way σ} {bs bs' : List (Backlog σ)}

/-- A backlog stays as it was, or it loses its files. -/
structure Spent (b b' : Backlog σ) : Prop where
  language : b'.parser.language = b.parser.language
  files : b'.files = b.files ∨ b'.files = []

theorem Spent.refl (b : Backlog σ) : Spent b b := ⟨rfl, .inl rfl⟩

theorem languages_of_spent (h : List.Forall₂ Spent bs bs') :
    bs'.map (·.parser.language) = bs.map (·.parser.language) := by
  induction h with
  | nil => rfl
  | cons hspent _ ih => rw [List.map_cons, List.map_cons, hspent.language, ih]

theorem sum_size_le_of_spent (h : List.Forall₂ Spent bs bs') :
    (bs'.map Backlog.size).sum ≤ (bs.map Backlog.size).sum := by
  induction h with
  | nil => exact Nat.le_refl _
  | @cons b b' _ _ hspent _ ih =>
      have hsize : b'.size ≤ b.size := by
        rcases hspent.files with hfiles | hfiles <;> simp [Backlog.size, hfiles]
      simp only [List.map_cons, List.sum_cons]
      exact Nat.add_le_add hsize ih

theorem exists_of_mem_spent (h : List.Forall₂ Spent bs bs') {b' : Backlog σ} (hb : b' ∈ bs') :
    ∃ b ∈ bs, Spent b b' := by
  induction h with
  | nil => cases hb
  | @cons b _ _ _ hspent _ ih =>
      rcases List.mem_cons.1 hb with rfl | hb
      · exact ⟨b, by simp, hspent⟩
      · obtain ⟨c, hc, hspent⟩ := ih hb
        exact ⟨c, List.mem_cons_of_mem _ hc, hspent⟩

/-- A run takes the files of a backlog all at once. -/
theorem forall₂_spent_parseAll (way : Way σ) (bs : List (Backlog σ)) :
    List.Forall₂ Spent bs (parseAll way.parse bs).memory := by
  induction bs with
  | nil => exact .nil
  | cons b bs ih =>
      have hspent : Spent b (way.parse b).memory :=
        ⟨congrArg Parser.language (way.keeps b), .inr (way.empties b)⟩
      have hkept : List.Forall₂ Spent bs bs := List.forall₂_same.2 fun b _ => Spent.refl b
      cases hempty : b.isEmpty with
      | true =>
          simp only [parseAll, hempty, ↓reduceIte]
          exact .cons (Spent.refl b) ih
      | false =>
          simp only [parseAll, hempty, Bool.false_eq_true, ↓reduceIte]
          split
          · exact .cons hspent hkept
          · exact .cons hspent ih

/-- A run that succeeds does so on the backlogs behind the first one. -/
theorem exists_of_parseAll_cons {b : Backlog σ} {found : List Fingerprint}
    (h : (parseAll way.parse (b :: bs)).value = .ok found) :
    ∃ found, (parseAll way.parse bs).value = .ok found := by
  cases hmore : (parseAll way.parse bs).value with
  | ok found => exact ⟨found, rfl⟩
  | error cause =>
      rw [parseAll] at h
      dsimp only at h
      split at h
      · cases h
      · rw [hmore] at h
        cases h

/-- A run that succeeds has taken every file. -/
theorem files_parseAll {found : List Fingerprint} (h : (parseAll way.parse bs).value = .ok found) :
    ∀ b ∈ (parseAll way.parse bs).memory, b.files = [] := by
  induction bs generalizing found with
  | nil => exact fun _ hb => absurd hb List.not_mem_nil
  | cons b bs ih =>
      obtain ⟨_, hmore⟩ := exists_of_parseAll_cons h
      cases hempty : b.isEmpty with
      | true =>
          have hfiles : b.files = [] := List.isEmpty_iff.1 hempty
          simpa [parseAll, hempty, hfiles] using ih hmore
      | false =>
          cases hvalue : (way.parse b).value with
          | ok found => simpa [parseAll, hempty, hvalue, way.empties b] using ih hmore
          | error cause => simp [parseAll, hempty, hvalue] at h

theorem sum_size_eq_zero (h : ∀ b ∈ bs, b.files = []) : (bs.map Backlog.size).sum = 0 := by
  refine List.sum_eq_zero_iff_forall_eq_nat.2 fun size hsize => ?_
  obtain ⟨b, hb, rfl⟩ := List.mem_map.1 hsize
  rw [Backlog.size, h b hb, List.length_nil]

/-- A run that succeeds reports the names and leaves no file. -/
theorem runWith_eq_ok {s : Session σ} {findings : Findings}
    (h : (s.runWith way.parse).value = .ok findings) :
    findings.files = s.names ∧ (s.runWith way.parse).memory.waiting = 0 := by
  rw [runWith] at h ⊢
  cases hvalue : (parseAll way.parse s.backlogs).value with
  | error cause => simp [hvalue] at h
  | ok found =>
      simp only [hvalue] at h ⊢
      exact ⟨(congrArg Findings.files (Except.ok.inj h)).symm,
        sum_size_eq_zero (files_parseAll hvalue)⟩

/-- A replaced parser takes the files of its language with it. -/
theorem forall₂_spent_withParser (parser : Parser σ) (memory : σ) (s : Session σ) :
    List.Forall₂ Spent s.backlogs (s.withParser parser memory).backlogs := by
  refine List.forall₂_map_right_iff.2 (List.forall₂_same.2 fun b _ => ?_)
  cases hfor : isFor parser.language b with
  | true => exact ⟨(beq_iff_eq.1 hfor).symm, .inr rfl⟩
  | false => exact Spent.refl b

theorem sum_size_add (language : Language) (file : SourceFile) (bs : List (Backlog σ)) :
    ((bs.map fun b => if isFor language b then b.add file else b).map Backlog.size).sum =
      (bs.map Backlog.size).sum + (bs.map (·.parser.language)).count language := by
  induction bs with
  | nil => rfl
  | cons b bs ih =>
      simp only [List.map_cons, List.sum_cons, List.count_cons, ih]
      cases hfor : isFor language b with
      | true =>
          rw [isFor] at hfor
          simp only [hfor, ↓reduceIte, Backlog.size, Backlog.add, List.length_append,
            List.length_singleton]
          omega
      | false =>
          rw [isFor] at hfor
          simp only [hfor, Bool.false_eq_true, ↓reduceIte]
          omega

end

namespace Register

/-- The books of a session are kept: what it accepted is what it reports, and what waits and what
was lost add up to it. A backlog holds the last files of its language. -/
structure Kept (r : Register σ) : Prop where
  names : r.session.names = r.accepted.map SourceFile.name
  languages : r.session.backlogs.map (·.parser.language) = Language.all
  known : ∀ f ∈ r.accepted, ∃ language, f.isIn language = true
  trailing : ∀ b ∈ r.session.backlogs, b.files <:+ r.accepted.filter (·.isIn b.parser.language)
  balance : r.accepted.length = r.session.waiting + r.lost

variable {r : Register σ}

theorem Kept.start {settings : Settings} {parserOf : Language → Parser σ} (memory : σ)
    (hparser : ∀ language, (parserOf language).language = language) :
    Kept { session := ofParsers settings parserOf memory } where
  names := rfl
  languages := by
    simp only [ofParsers, List.map_map]
    exact (List.map_congr_left fun language _ => hparser language).trans (List.map_id _)
  known _ hf := absurd hf List.not_mem_nil
  trailing b hb := by
    obtain ⟨language, -, rfl⟩ := List.mem_map.1 hb
    exact List.nil_suffix
  balance := by
    simp [waiting, ofParsers, Backlog.size, Function.comp_def]

/-- What a backlog loses is written down. -/
theorem Kept.spend {session : Session σ} (h : r.Kept) (hnames : session.names = r.session.names)
    (hspent : List.Forall₂ Spent r.session.backlogs session.backlogs) :
    Kept { r with session, lost := r.lost + (r.session.waiting - session.waiting) } where
  names := hnames.trans h.names
  languages := (languages_of_spent hspent).trans h.languages
  known := h.known
  trailing b' hb' := by
    obtain ⟨b, hb, hlanguage, hfiles⟩ := exists_of_mem_spent hspent hb'
    rcases hfiles with hfiles | hfiles
    · rw [hfiles, hlanguage]
      exact h.trailing b hb
    · rw [hfiles]
      exact List.nil_suffix
  balance := by
    have hless : session.waiting ≤ r.session.waiting := sum_size_le_of_spent hspent
    have hbalance := h.balance
    dsimp only
    omega

/-- A file goes to the end of the backlog of its language. -/
theorem files_add_suffix {language : Language} {file : SourceFile} {accepted : List SourceFile}
    {b : Backlog σ} (hlanguage : Language.ofPath? file.name = some language)
    (h : b.files <:+ accepted.filter (·.isIn b.parser.language)) :
    (if isFor language b then b.add file else b).files <:+
      (accepted ++ [file]).filter (·.isIn b.parser.language) := by
  obtain ⟨front, hfront⟩ := h
  rw [List.filter_append, ← hfront]
  cases hfor : isFor language b with
  | true =>
      have hin : file.isIn b.parser.language = true := by
        rw [beq_iff_eq.1 hfor]
        exact decide_eq_true hlanguage
      rw [List.filter_cons_of_pos hin, List.filter_nil, List.append_assoc]
      exact List.suffix_append _ _
  | false =>
      have hout : ¬ file.isIn b.parser.language = true := by
        intro hin
        have hsame := Option.some.inj (hlanguage.symm.trans (of_decide_eq_true hin))
        exact absurd (beq_iff_eq.2 hsame.symm) (Bool.eq_false_iff.1 hfor)
      rw [List.filter_cons_of_neg hout, List.filter_nil, List.append_nil]
      exact List.suffix_append _ _

theorem Kept.add (h : r.Kept) (file : SourceFile) : (r.after (.add file)).Kept := by
  rw [after, add?]
  cases hlanguage : Language.ofPath? file.name with
  | none => exact h
  | some language =>
      have hparser (b : Backlog σ) :
          (if isFor language b then b.add file else b).parser = b.parser := by
        split <;> rfl
      have honce : Language.all.count language = 1 := by cases language <;> rfl
      rw [Option.map_some]
      exact {
        names := by simp only [h.names, List.map_append, List.map_cons, List.map_nil]
        languages := by
          simp only [List.map_map, Function.comp_def, hparser]
          exact h.languages
        known := fun f hf => by
          rcases List.mem_append.1 hf with hf | hf
          · exact h.known f hf
          · rw [List.mem_singleton.1 hf]
            exact ⟨language, decide_eq_true hlanguage⟩
        trailing := fun b' hb' => by
          obtain ⟨b, hb, rfl⟩ := List.mem_map.1 hb'
          rw [hparser]
          exact files_add_suffix hlanguage (h.trailing b hb)
        balance := by
          have hbalance := h.balance
          simp only [waiting, sum_size_add, h.languages, honce, List.length_append,
            List.length_singleton] at hbalance ⊢
          omega }

theorem Kept.withParser (h : r.Kept) (parser : Parser σ) (memory : σ) :
    (r.after (.withParser parser memory)).Kept :=
  h.spend rfl (forall₂_spent_withParser parser memory r.session)

theorem Kept.run (h : r.Kept) (way : Way σ) : (r.after (.run way)).Kept := by
  have hspent := forall₂_spent_parseAll way r.session.backlogs
  simp only [after, runWith]
  cases hvalue : (parseAll way.parse r.session.backlogs).value with
  | error cause => exact h.spend rfl hspent
  | ok found =>
      have hfiles := files_parseAll hvalue
      exact {
        names := rfl
        languages := (languages_of_spent hspent).trans h.languages
        known := fun f hf => absurd hf List.not_mem_nil
        trailing := fun b hb => by
          rw [hfiles b hb]
          exact List.nil_suffix
        balance := (sum_size_eq_zero hfiles).symm }

theorem Kept.after (h : r.Kept) (deed : Deed σ) : (r.after deed).Kept := by
  cases deed with
  | add file => exact h.add file
  | withParser parser memory => exact h.withParser parser memory
  | run way => exact h.run way

theorem Kept.afterAll (h : r.Kept) (deeds : List (Deed σ)) : (r.afterAll deeds).Kept := by
  induction deeds generalizing r with
  | nil => exact h
  | cons deed deeds ih => exact ih (h.after deed)

/-- The books balance: every accepted file waits in the backlog of its language, in the order of
arrival, and a run takes and reports just these and leaves none. -/
structure Balanced (r : Register σ) : Prop where
  count : r.session.fileCount = r.session.waiting
  waiting : ∀ b ∈ r.session.backlogs, b.files = r.accepted.filter (·.isIn b.parser.language)
  taken : (r.session.backlogs.flatMap Backlog.files).Perm r.accepted
  reported : ∀ (way : Way σ) findings, (r.session.runWith way.parse).value = .ok findings →
    findings.files = r.accepted.map SourceFile.name ∧
      (r.session.runWith way.parse).memory.waiting = 0

/-- Every accepted file is in one language. -/
theorem flatMap_isIn_perm {files : List SourceFile}
    (h : ∀ f ∈ files, ∃ language, f.isIn language = true) :
    (Language.all.flatMap fun language => files.filter (·.isIn language)).Perm files := by
  have hcount (f : SourceFile) (language : Language) :
      (files.filter (·.isIn language)).count f = if f.isIn language then files.count f else 0 := by
    split
    · rename_i hin
      exact List.count_filter hin
    · rename_i hout
      exact List.count_eq_zero.2 fun hmem => hout (List.mem_filter.1 hmem).2
  refine List.perm_iff_count.2 fun f => ?_
  by_cases hf : f ∈ files
  · obtain ⟨language, hlanguage⟩ := h f hf
    have hpath : Language.ofPath? f.name = some language := of_decide_eq_true hlanguage
    have hin (other : Language) : f.isIn other = decide (language = other) := by
      simp only [SourceFile.isIn, hpath, Option.some.injEq]
    simp only [Language.all, List.flatMap_cons, List.flatMap_nil, List.count_append, hcount, hin]
    cases language <;> simp
  · have hnone : files.count f = 0 := List.count_eq_zero.2 hf
    simp [Language.all, hcount, hnone]

theorem eq_of_sum_eq {α : Type} {f g : α → Nat} {l : List α} (hle : ∀ a ∈ l, f a ≤ g a)
    (hsum : (l.map f).sum = (l.map g).sum) : ∀ a ∈ l, f a = g a := by
  induction l with
  | nil => exact fun a ha => absurd ha List.not_mem_nil
  | cons a l ih =>
      have hhead := hle a (by simp)
      have htail : ∀ b ∈ l, f b ≤ g b := fun b hb => hle b (List.mem_cons_of_mem _ hb)
      have hrest := List.sum_le_sum htail
      simp only [List.map_cons, List.sum_cons] at hsum
      intro b hb
      rcases List.mem_cons.1 hb with rfl | hb
      · omega
      · exact ih htail (by omega) b hb

/-- While nothing was lost the books balance. -/
theorem Kept.balanced (h : r.Kept) (hlost : r.lost = 0) : r.Balanced := by
  have hbalance := h.balance
  have hperm := flatMap_isIn_perm h.known
  rw [← h.languages, List.flatMap_map] at hperm
  have hwaiting : ∀ b ∈ r.session.backlogs, b.size =
      (r.accepted.filter (·.isIn b.parser.language)).length := by
    apply eq_of_sum_eq
    · exact fun b hb => (h.trailing b hb).length_le
    · have hlength := hperm.length_eq
      rw [List.length_flatMap] at hlength
      rw [hlength, hbalance, hlost]
      rfl
  have hfiles : ∀ b ∈ r.session.backlogs, b.files =
      r.accepted.filter (·.isIn b.parser.language) :=
    fun b hb => (h.trailing b hb).eq_of_length (hwaiting b hb)
  refine ⟨?_, hfiles, ?_, fun way findings hrun => ?_⟩
  · rw [fileCount, h.names, List.length_map, hbalance, hlost, Nat.add_zero]
  · rw [List.flatMap_congr hfiles]
    exact hperm
  · obtain ⟨hnames, hnone⟩ := runWith_eq_ok hrun
    exact ⟨hnames.trans h.names, hnone⟩

/-- Whatever was done to a session, also if runs failed: while nothing is lost that was accepted
since the last run that succeeded, it counts the files that wait, and a run that succeeds
reports the files that it takes, in the order in which they were added. -/
theorem balanced_of_nothing_lost {settings : Settings} {parserOf : Language → Parser σ} {memory : σ}
    {deeds : List (Deed σ)} (hparser : ∀ language, (parserOf language).language = language)
    (hlost : (afterAll { session := ofParsers settings parserOf memory } deeds).lost = 0) :
    (afterAll { session := ofParsers settings parserOf memory } deeds).Balanced :=
  ((Kept.start memory hparser).afterAll deeds).balanced hlost

/-- A parser that does not survive any file. -/
def volatile (language : Language) : Parser Unit where
  language
  splits := false
  parseFile _ _ _ _ := ⟨.error (.crash ⟨"front-end exploded"⟩), (), []⟩
  parseChunk _ _ _ := ⟨.error (.crash ⟨"front-end exploded"⟩), (), []⟩
  itemStarts _ _ := ⟨none, (), []⟩
  clear := id

/-- A session whose parsers are all like that. -/
def doomed : Register Unit := { session := ofParsers {} volatile () }

/-- A run fails, the next one has nothing to do, and two files are added after it. -/
theorem balanced_behind_failed_run :
    let deeds : List (Deed Unit) :=
      [.add ⟨"a.py", []⟩, .run (.pooled 4 10 15360), .run (.inOrder 10), .add ⟨"b.py", []⟩,
        .withParser (volatile .java) (), .add ⟨"c.js", []⟩]
    (∀ language, (volatile language).language = language) ∧ (doomed.afterAll deeds).lost = 0 ∧
      (doomed.afterAll deeds).session.fileCount = 2 ∧ (doomed.afterAll deeds).Balanced := by
  intro deeds
  have hparser : ∀ language, (volatile language).language = language := fun _ => rfl
  have hlost : (doomed.afterAll deeds).lost = 0 := rfl
  exact ⟨hparser, hlost, rfl, balanced_of_nothing_lost hparser hlost⟩

/-- A session without an export tool. -/
def exportless : Register Memory where
  session := ofFrontEnds { threadCount := 1 }
    { build := fun _ _ =>
        .node { id := 0, kind := "", start := 0, stop := 0, startRow := 0, stopRow := 0 } []
      exporter := fun _ _ _ => .error (.frontEndUnavailable "no exporter") }

/-- The names outlast the files. A replaced parser takes a file with it that is still counted;
a run that fails does so too, and the next one reports a file that it does not have; and a run
reports a file that it passes over because the export tool is missing. -/
theorem names_outlast_files :
    (let replaced := [.add ⟨"a.py", []⟩, .withParser (volatile .python) ()]
     (doomed.afterAll replaced).session.fileCount = 1 ∧
       (doomed.afterAll replaced).session.waiting = 0) ∧
    (let failed := [.add ⟨"a.py", []⟩, .run (.pooled 4 10 15360)]
     (doomed.afterAll failed).session.fileCount = 1 ∧
       (doomed.afterAll failed).session.waiting = 0 ∧
         (doomed.afterAll failed).session.run.value = .ok ⟨["a.py"], []⟩) ∧
    (let second := [.add ⟨"Main.java", "class Main \x7b\x7d".toList⟩, .run (.pooled 1 10 15360),
       .add ⟨"Next.java", "class Next \x7b\x7d".toList⟩]
     (exportless.afterAll second).session.run.value = .ok ⟨["Next.java"], []⟩ ∧
       (exportless.afterAll second).session.run.notices = []) := by
  exact ⟨⟨rfl, rfl⟩, ⟨rfl, rfl, rfl⟩, rfl, rfl⟩

end Register

end Session

end ClonePrint
