import Mathlib.Data.List.Forall2
import LocaleTidy.Usage.Verdict

/-!
# Files under other paths

Searches look at the contents of files and at which ones are excluded. Under other paths the same
searches come upon the same files.
-/

namespace LocaleTidy

variable {R : Path → Path → Prop}

/-- The same file under another path. -/
structure SourceFile.Alike (R : Path → Path → Prop) (file twin : SourceFile) : Prop where
  path : R file.path twin.path
  content : twin.content = file.content
  excluded : twin.excluded = file.excluded

inductive SearchOutcome.Alike (R : Path → Path → Prop) : SearchOutcome → SearchOutcome → Prop
  where
  | found {path twin : Path} (hpath : R path twin) : Alike R (.found path) (.found twin)
  | notFound : Alike R .notFound .notFound
  | failed (problem : SearchProblem) : Alike R (.failed problem) (.failed problem)

structure Evidence.Alike (R : Path → Path → Prop) (evidence twin : Evidence) : Prop where
  strategy : twin.strategy = evidence.strategy
  file : R evidence.file twin.file

/-- Verdicts that tell the same of the same files under other paths. -/
structure Verdict.Alike (R : Path → Path → Prop) (verdict twin : Verdict) : Prop where
  key : twin.key = verdict.key
  evidence : Option.Rel (Evidence.Alike R) verdict.evidence twin.evidence
  failures : twin.failures = verdict.failures

theorem Verdict.Alike.isUsed_eq {verdict twin : Verdict} (h : verdict.Alike R twin) :
    twin.isUsed = verdict.isUsed := by
  have hevidence := h.evidence
  rw [isUsed, isUsed]
  revert hevidence
  generalize verdict.evidence = evidence
  generalize twin.evidence = other
  intro hevidence
  cases hevidence <;> rfl

section Searches

variable {files twins : List SourceFile} {options : SearchOptions}

theorem forall₂_filter (h : List.Forall₂ (SourceFile.Alike R) files twins)
    {accepts : SourceFile → Bool}
    (haccepts : ∀ file twin, file.Alike R twin → accepts twin = accepts file) :
    List.Forall₂ (SourceFile.Alike R) (files.filter accepts) (twins.filter accepts) := by
  induction h with
  | nil => exact .nil
  | cons hfile _ ih =>
      rw [List.filter_cons, List.filter_cons, haccepts _ _ hfile]
      split
      · exact .cons hfile ih
      · exact ih

theorem firstMatch_cons (file : SourceFile) (files : List SourceFile) (accepts : String → Bool) :
    firstMatch (file :: files) accepts =
      if accepts file.content then .found file.path else firstMatch files accepts := by
  unfold firstMatch
  cases haccepts : accepts file.content <;> simp [haccepts]

theorem firstMatch_alike (h : List.Forall₂ (SourceFile.Alike R) files twins)
    (accepts : String → Bool) : (firstMatch files accepts).Alike R (firstMatch twins accepts) := by
  induction h with
  | nil => exact .notFound
  | cons hfile _ ih =>
      rw [firstMatch_cons, firstMatch_cons, hfile.content]
      split
      · exact .found hfile.path
      · exact ih

theorem searchPattern_alike (h : List.Forall₂ (SourceFile.Alike R) files twins)
    (pattern : String) :
    (searchPattern options pattern files).Alike R (searchPattern options pattern twins) := by
  unfold searchPattern
  cases options.compile pattern with
  | ok regex => exact firstMatch_alike h _
  | error problem => exact .failed problem

namespace Corpus

variable {corpus other : Corpus}

theorem forall₂_evidenceFiles
    (h : List.Forall₂ (SourceFile.Alike R) corpus.files other.files) :
    List.Forall₂ (SourceFile.Alike R) corpus.evidenceFiles other.evidenceFiles :=
  forall₂_filter h fun _ _ hfile => by rw [hfile.excluded]

theorem findNamespaced_alike (h : List.Forall₂ (SourceFile.Alike R) corpus.files other.files)
    (key space : String) :
    (corpus.findNamespaced options key space).Alike R
      (other.findNamespaced options key space) := by
  have hcall : ∀ {files twins}, List.Forall₂ (SourceFile.Alike R) files twins →
      (findCall options key files).Alike R (findCall options key twins) := by
    intro files twins hfiles
    cases hfiles with
    | nil => simpa [findCall] using SearchOutcome.Alike.notFound
    | cons hfile hrest => simpa [findCall] using searchPattern_alike (.cons hfile hrest) _
  unfold findNamespaced declaring
  by_cases hfunctions : options.namespaceFunctions.isEmpty = true
  · simpa only [hfunctions, if_true] using hcall .nil
  simp only [hfunctions, Bool.false_eq_true, if_false]
  cases options.compile (Pattern.declaration options.namespaceFunctions space) with
  | ok regex =>
      have hbinding : List.Forall₂ (SourceFile.Alike R)
          (corpus.files.filter fun file => regex.foundIn file.content)
          (other.files.filter fun file => regex.foundIn file.content) :=
        forall₂_filter h fun _ _ hfile => by rw [hfile.content]
      simpa only [bind, Except.bind, pure, Except.pure] using hcall hbinding
  | error problem => exact .failed problem

theorem findIndexed_alike (h : List.Forall₂ (SourceFile.Alike R) corpus.files other.files)
    (key : String) :
    (corpus.findIndexed options key).Alike R (other.findIndexed options key) := by
  have hevidence := forall₂_evidenceFiles h
  unfold findIndexed
  cases options.compile (Pattern.generalized key) with
  | ok regex => exact firstMatch_alike hevidence _
  | error problem =>
      have hiterated : (corpus.findIterated (Key.firstSegment key)).Alike R
          (other.findIterated (Key.firstSegment key)) := by
        unfold findIterated
        exact firstMatch_alike hevidence _
      revert hiterated
      generalize corpus.findIterated (Key.firstSegment key) = outcome
      generalize other.findIterated (Key.firstSegment key) = twin
      intro hiterated
      cases hiterated with
      | found hpath => exact .found hpath
      | notFound => exact .failed problem
      | failed other => exact .failed other

theorem run_alike (h : List.Forall₂ (SourceFile.Alike R) corpus.files other.files)
    (query : Query) : (query.run corpus options).Alike R (query.run other options) := by
  unfold Query.run
  cases query with
  | indexed key => exact findIndexed_alike h key
  | reference text =>
      unfold findReference
      exact searchPattern_alike (forall₂_evidenceFiles h) _
  | namespaced key space => exact findNamespaced_alike h key space

theorem firstEvidence_alike (h : List.Forall₂ (SourceFile.Alike R) corpus.files other.files)
    (searches : List (Strategy × Query)) :
    Option.Rel (Evidence.Alike R) (corpus.firstEvidence options searches).1
        (other.firstEvidence options searches).1 ∧
      (other.firstEvidence options searches).2 = (corpus.firstEvidence options searches).2 := by
  induction searches with
  | nil => exact ⟨.none, rfl⟩
  | cons search searches ih =>
      have hrun : (search.2.run corpus options).Alike R (search.2.run other options) :=
        run_alike h search.2
      simp only [firstEvidence]
      revert hrun
      generalize search.2.run corpus options = outcome
      generalize search.2.run other options = twin
      intro hrun
      cases hrun with
      | found hpath => exact ⟨.some ⟨rfl, hpath⟩, rfl⟩
      | notFound => exact ih
      | failed problem => exact ⟨ih.1, by simp [ih.2]⟩

theorem decide_eq (corpus : Corpus) (options : UsageOptions) (key : String) :
    corpus.decide options key =
      ⟨key, (corpus.firstEvidence options.search (options.chain key)).1,
        (corpus.firstEvidence options.search (options.chain key)).2⟩ :=
  rfl

theorem decide_alike (h : List.Forall₂ (SourceFile.Alike R) corpus.files other.files)
    (options : UsageOptions) (key : String) :
    (corpus.decide options key).Alike R (other.decide options key) := by
  obtain ⟨hevidence, hfailures⟩ :=
    @firstEvidence_alike R options.search corpus other h (options.chain key)
  rw [decide_eq, decide_eq]
  constructor
  · rfl
  · simpa only using hevidence
  · simpa only using hfailures

end Corpus

end Searches

end LocaleTidy
