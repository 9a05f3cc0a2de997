import LineSearch.Proofs.Search.Output
import LineSearch.Search.Sources

namespace LineSearch

open Text (Bytes)

structure Source where
  name : String
  content : Except FileError Bytes

namespace Inputs

def content (inputs : Inputs) (path : String) : Except FileError Bytes :=
  if Path.isStandardInput path then .ok inputs.standardInput else inputs.read path

def source (inputs : Inputs) (path : String) : Source :=
  ⟨SourcesSearch.displayName path, inputs.content path⟩

def afterwards (inputs : Inputs) (path : String) : Inputs :=
  if Path.isStandardInput path then { inputs with standardInput := [] } else inputs

/-- The sources of some paths. All of standard input is in the first of those that it makes. -/
def sources (inputs : Inputs) : List String → List Source
  | [] => []
  | path :: paths => inputs.source path :: (inputs.afterwards path).sources paths

theorem sources_perm (inputs : Inputs) {paths paths' : List String} (h : paths.Perm paths') :
    (inputs.sources paths).Perm (inputs.sources paths') := by
  induction h generalizing inputs with
  | nil => exact .nil
  | cons path _ ih => exact (ih _).cons _
  | swap first second paths =>
    -- where both are standard input, the one that is read first has all of it
    cases hfirst : Path.isStandardInput first <;> cases hsecond : Path.isStandardInput second <;>
      simp [sources, source, content, afterwards, SourcesSearch.displayName, hfirst, hsecond,
        List.Perm.swap]
  | trans _ _ ih ih' => exact (ih inputs).trans (ih' inputs)

end Inputs

namespace Source

variable (p : Pattern) (o : SearchOptions)

def printed (source : Source) : Bytes :=
  match source.content with
  | .ok content =>
    (p.searchInput o source.name content ⟨.unlimited, 0⟩).2.writer.written.toList
  | .error _ => []

def isFailed (source : Source) : Bool :=
  match source.content with
  | .ok _ => false
  | .error _ => true

def isMatched (source : Source) : Bool :=
  match source.content with
  | .ok content => 0 < (p.matchesIn content).length
  | .error _ => false

theorem printed_of_ok {name : String} {content : Bytes} :
    printed p o ⟨name, .ok content⟩ = p.output o name content 0 := by
  obtain ⟨begun, heq, _⟩ := p.searchInput_eq o name content ⟨.unlimited, 0⟩
  simp only [printed, heq]
  simp [Writer.after, Writer.taken, Writer.unlimited]

def allPrinted (sources : List Source) : Bytes := sources.flatMap (printed p o)

variable {p o} {source : Source}

theorem isMatched_of_printed (h : o.count = false) (hprinted : source.printed p o ≠ []) :
    source.isMatched p = true := by
  obtain ⟨name, error | content⟩ := source
  · exact absurd rfl hprinted
  · rw [printed_of_ok, Pattern.output_of_print h] at hprinted
    refine decide_eq_true (List.length_pos_iff.mpr fun hnone ↦ hprinted ?_)
    rw [hnone]
    rfl

end Source

namespace SourcesSearch

variable {p : Pattern} {o : SearchOptions} {s : SourcesSearch} {path : String}
  {paths : List String}

/-- What a search of one source comes to, apart from what is told. -/
structure Searches (p : Pattern) (o : SearchOptions) (source : Source) (s : SourcesSearch)
    (answer : Bool × SourcesSearch) : Prop where
  writer_eq : answer.2.writer = s.writer.after (source.printed p o)
  isMatched_eq : answer.2.isMatched = (s.isMatched || source.isMatched p)
  of_fits : s.writer.Fits (source.printed p o) →
    answer.1 = true ∧ answer.2.isFailed = (s.isFailed || source.isFailed)
  of_other : ¬s.writer.Fits (source.printed p o) → s.writer.fault = .other →
    answer.1 = true ∧ answer.2.isFailed = true
  of_brokenPipe : ¬s.writer.Fits (source.printed p o) → s.writer.fault = .brokenPipe →
    answer.1 = false ∧ answer.2.isFailed = s.isFailed

theorem takeInput_eq (s : SourcesSearch) (path : String) :
    ∃ notice, s.takeInput path = (s.inputs.content path,
      { s.tell notice with inputs := s.inputs.afterwards path }) := by
  unfold takeInput Inputs.content Inputs.afterwards
  split <;> exact ⟨_, rfl⟩

theorem searches_searchOne (p : Pattern) (o : SearchOptions) (path : String) (s : SourcesSearch) :
    Searches p o (s.inputs.source path) s (searchOne p o path s) ∧
      (searchOne p o path s).2.inputs = s.inputs.afterwards path := by
  obtain ⟨notice, htake⟩ := takeInput_eq s path
  rw [searchOne, htake, Inputs.source]
  cases s.inputs.content path with
  | error e =>
    have hfits := s.writer.fits_nil
    refine ⟨⟨?_, ?_, fun _ ↦ ⟨rfl, ?_⟩, fun h ↦ absurd hfits h, fun h ↦ absurd hfits h⟩, rfl⟩
    · exact s.writer.after_nil.symm
    · exact (Bool.or_false _).symm
    · exact (Bool.or_true _).symm
  | ok content =>
    obtain ⟨begun, heq, hcount, hbegins⟩ :=
      p.searchInput_eq o (displayName path) content ⟨s.writer, 0⟩
    have hbegun : 0 < 0 + begun ↔ 0 < (p.matchesIn content).length := by
      rw [Nat.zero_add]
      cases hoption : o.count with
      | true => rw [hcount hoption]
      | false =>
        rw [(hbegins hoption).pos_iff, SearchOptions.chunks, ne_eq, List.map_eq_nil_iff,
          List.length_pos_iff]
    have hprinted : Source.printed p o ⟨displayName path, .ok content⟩ =
        p.output o (displayName path) content 0 := Source.printed_of_ok p o
    simp only [tell, heq, hbegun]
    by_cases hfits : s.writer.Fits (p.output o (displayName path) content 0)
    · simp only [hfits, if_true]
      refine ⟨⟨?_, rfl, ?_, ?_, ?_⟩, trivial⟩ <;> simp [hprinted, hfits, Source.isFailed]
    · simp only [hfits, if_false]
      cases hfault : s.writer.fault with
      | brokenPipe =>
        refine ⟨⟨?_, rfl, ?_, ?_, ?_⟩, rfl⟩ <;> simp [hprinted, hfits, hfault]
      | other =>
        refine ⟨⟨?_, rfl, ?_, ?_, ?_⟩, rfl⟩ <;> simp [hprinted, hfits, hfault]

theorem searchEach_cons (p : Pattern) (o : SearchOptions) (path : String) (paths : List String)
    (s : SourcesSearch) :
    searchEach p o (path :: paths) s =
      if (searchOne p o path s).1 then searchEach p o paths (searchOne p o path s).2
      else (false, (searchOne p o path s).2) := by
  rw [searchEach]
  split <;> simp_all

theorem writer_searchEach (p : Pattern) (o : SearchOptions) (paths : List String)
    (s : SourcesSearch) :
    (searchEach p o paths s).2.writer =
      s.writer.after (Source.allPrinted p o (s.inputs.sources paths)) := by
  induction paths generalizing s with
  | nil => exact s.writer.after_nil.symm
  | cons path paths ih =>
    obtain ⟨hone, hinputs⟩ := searches_searchOne p o path s
    have hrest := ih (searchOne p o path s).2
    rw [hinputs, hone.writer_eq, ← Writer.after_append] at hrest
    rw [searchEach_cons]
    split
    · exact hrest
    · next hstop =>
      have hcut : ¬s.writer.Fits ((s.inputs.source path).printed p o) :=
        fun hfits ↦ hstop (hone.of_fits hfits).1
      exact hone.writer_eq.trans (Writer.after_append_of_not_fits hcut _).symm

theorem searchEach_of_fits
    (hfits : s.writer.Fits (Source.allPrinted p o (s.inputs.sources paths))) :
    (searchEach p o paths s).1 = true ∧
    (searchEach p o paths s).2.isMatched =
      (s.isMatched || (s.inputs.sources paths).any (Source.isMatched p)) ∧
    (searchEach p o paths s).2.isFailed =
      (s.isFailed || (s.inputs.sources paths).any Source.isFailed) := by
  induction paths generalizing s with
  | nil => simp [searchEach, Inputs.sources]
  | cons path paths ih =>
    obtain ⟨hone, hinputs⟩ := searches_searchOne p o path s
    obtain ⟨hfirst, hrest⟩ := Writer.fits_append_iff.mp hfits
    obtain ⟨hgoes, hfailed⟩ := hone.of_fits hfirst
    rw [← hone.writer_eq, ← hinputs] at hrest
    obtain ⟨hend, hmatched', hfailed'⟩ := ih hrest
    rw [searchEach_cons, if_pos hgoes]
    refine ⟨hend, ?_, ?_⟩
    · rw [hmatched', hone.isMatched_eq, hinputs, Bool.or_assoc]
      rfl
    · rw [hfailed', hfailed, hinputs, Bool.or_assoc]
      rfl

theorem searchEach_of_other (hfault : s.writer.fault = .other) :
    (searchEach p o paths s).1 = true ∧
    (s.isFailed = true ∨ ¬s.writer.Fits (Source.allPrinted p o (s.inputs.sources paths)) →
      (searchEach p o paths s).2.isFailed = true) := by
  induction paths generalizing s with
  | nil =>
    exact ⟨rfl, fun h ↦ h.resolve_right (not_not_intro s.writer.fits_nil)⟩
  | cons path paths ih =>
    obtain ⟨hone, hinputs⟩ := searches_searchOne p o path s
    have hfault' : (searchOne p o path s).2.writer.fault = .other := by
      rw [hone.writer_eq]
      exact hfault
    obtain ⟨hend, hfailed⟩ := ih hfault'
    rw [searchEach_cons]
    by_cases hfirst : s.writer.Fits ((s.inputs.source path).printed p o)
    · obtain ⟨hgoes, hfailed₁⟩ := hone.of_fits hfirst
      rw [if_pos hgoes]
      refine ⟨hend, fun h ↦ hfailed (h.imp (fun h ↦ ?_) (fun hcut hrest ↦ hcut ?_))⟩
      · rw [hfailed₁, h, Bool.true_or]
      · rw [hone.writer_eq, hinputs] at hrest
        exact Writer.fits_append_iff.mpr ⟨hfirst, hrest⟩
    · obtain ⟨hgoes, hfailed₁⟩ := hone.of_other hfirst hfault
      rw [if_pos hgoes]
      exact ⟨hend, fun _ ↦ hfailed (Or.inl hfailed₁)⟩

/-- Where the reader of the output goes away, the search ends with the source at which that
happens, and what comes after does not matter. -/
theorem searchEach_of_brokenPipe (hfault : s.writer.fault = .brokenPipe)
    (hcut : ¬s.writer.Fits (Source.allPrinted p o (s.inputs.sources paths))) :
    ∃ earlier path later, paths = earlier ++ path :: later ∧
      s.writer.Fits (Source.allPrinted p o (s.inputs.sources earlier)) ∧
      ¬s.writer.Fits (Source.allPrinted p o (s.inputs.sources (earlier ++ [path]))) ∧
      ∃ stopped : SourcesSearch,
        (∀ later', searchEach p o (earlier ++ path :: later') s = (false, stopped)) ∧
        stopped.isFailed = (s.isFailed || (s.inputs.sources earlier).any Source.isFailed) ∧
        stopped.isMatched =
          (s.isMatched || (s.inputs.sources (earlier ++ [path])).any (Source.isMatched p)) ∧
        (o.count = false → stopped.isMatched = true) := by
  induction paths generalizing s with
  | nil => exact absurd s.writer.fits_nil hcut
  | cons path paths ih =>
    obtain ⟨hone, hinputs⟩ := searches_searchOne p o path s
    by_cases hfirst : s.writer.Fits ((s.inputs.source path).printed p o)
    · obtain ⟨hgoes, hfailed⟩ := hone.of_fits hfirst
      have hfault' : (searchOne p o path s).2.writer.fault = .brokenPipe := by
        rw [hone.writer_eq]
        exact hfault
      have hcut' : ¬(searchOne p o path s).2.writer.Fits
          (Source.allPrinted p o ((searchOne p o path s).2.inputs.sources paths)) := by
        rw [hone.writer_eq, hinputs]
        exact fun hrest ↦ hcut (Writer.fits_append_iff.mpr ⟨hfirst, hrest⟩)
      obtain ⟨earlier, last, later, rfl, hbefore, hlast, stopped, hstop, hfailed', hmatched',
        hprint⟩ := ih hfault' hcut'
      rw [hone.writer_eq, hinputs] at hbefore hlast
      refine ⟨path :: earlier, last, later, rfl, Writer.fits_append_iff.mpr ⟨hfirst, hbefore⟩,
        fun h ↦ hlast (Writer.fits_append_iff.mp h).2, stopped, fun later' ↦ ?_, ?_, ?_, hprint⟩
      · rw [List.cons_append, searchEach_cons, if_pos hgoes]
        exact hstop later'
      · rw [hfailed', hfailed, hinputs, Bool.or_assoc]
        rfl
      · rw [hmatched', hone.isMatched_eq, hinputs, Bool.or_assoc]
        rfl
    · obtain ⟨hstop, hfailed⟩ := hone.of_brokenPipe hfirst hfault
      refine ⟨[], path, paths, rfl, s.writer.fits_nil, ?_, (searchOne p o path s).2,
        fun later' ↦ ?_, ?_, ?_, fun hprint ↦ ?_⟩
      · simpa [Inputs.sources, Source.allPrinted] using hfirst
      · rw [List.nil_append, searchEach_cons, hstop]
        rfl
      · simpa [Inputs.sources] using hfailed
      · simpa [Inputs.sources] using hone.isMatched_eq
      · have hne : (s.inputs.source path).printed p o ≠ [] := by
          intro h
          exact hfirst (h ▸ s.writer.fits_nil)
        rw [hone.isMatched_eq, Source.isMatched_of_printed hprint hne, Bool.or_true]

theorem searchAll_of_end (h : (searchEach p o paths s).1 = true) (flushFault : Option Fault) :
    searchAll p o paths flushFault s = (searchEach p o paths s).2.flush flushFault := by
  rw [searchAll]
  split <;> simp_all

theorem searchAll_of_stop {stopped : SourcesSearch}
    (h : searchEach p o paths s = (false, stopped)) (flushFault : Option Fault) :
    searchAll p o paths flushFault s = stopped := by
  rw [searchAll, h]

theorem writer_flush (s : SourcesSearch) (flushFault : Option Fault) :
    (s.flush flushFault).writer = s.writer := by
  unfold flush
  split <;> rfl

theorem isMatched_flush (s : SourcesSearch) (flushFault : Option Fault) :
    (s.flush flushFault).isMatched = s.isMatched := by
  unfold flush
  split <;> rfl

theorem isFailed_flush (s : SourcesSearch) (flushFault : Option Fault) :
    (s.flush flushFault).isFailed = (s.isFailed || flushFault == some .other) := by
  rcases flushFault with _ | _ | _ <;> simp [flush, tell]

theorem writer_searchAll (p : Pattern) (o : SearchOptions) (paths : List String)
    (flushFault : Option Fault) (s : SourcesSearch) :
    (searchAll p o paths flushFault s).writer =
      s.writer.after (Source.allPrinted p o (s.inputs.sources paths)) := by
  rw [← writer_searchEach, searchAll]
  split
  · next h => rw [writer_flush, h]
  · next h => rw [h]

theorem exitCode_of_fits {inputs : Inputs} {w : Writer}
    (hfits : w.Fits (Source.allPrinted p o (inputs.sources paths))) (flushFault : Option Fault) :
    (searchAll p o paths flushFault (start inputs w)).exitCode =
      if (inputs.sources paths).any Source.isFailed = true ∨ flushFault = some .other then 2
      else if (inputs.sources paths).any (Source.isMatched p) = true then 0 else 1 := by
  obtain ⟨hend, hmatched, hfailed⟩ := searchEach_of_fits (s := start inputs w) hfits
  rw [searchAll_of_end hend, exitCode, isFailed_flush, isMatched_flush, hfailed, hmatched]
  simp [start]

/-- Of the outputs of the sources that is written for which there is room. Where that is all, the
status tells whether a source or the flush failed and, if not, whether a line matched, in whatever
order the sources come. Otherwise it is that of a failure, unless the reader has gone away: then it
tells of the sources before the one at which that happened and, if none of them failed, of the
matches up to this one, and what comes after does not matter. -/
theorem searchAll_exitCode (p : Pattern) (o : SearchOptions) (inputs : Inputs) (w : Writer)
    (paths : List String) (flushFault : Option Fault) :
    let total (paths : List String) := Source.allPrinted p o (inputs.sources paths)
    let ended := searchAll p o paths flushFault (start inputs w)
    ended.writer.written = w.written ++ w.taken (total paths) ∧
    (w.Fits (total paths) →
      ended.exitCode =
        (if (inputs.sources paths).any Source.isFailed = true ∨ flushFault = some .other then 2
        else if (inputs.sources paths).any (Source.isMatched p) = true then 0 else 1) ∧
      ∀ paths', paths'.Perm paths →
        (searchAll p o paths' flushFault (start inputs w)).exitCode = ended.exitCode) ∧
    (¬w.Fits (total paths) → w.fault = .other → ended.exitCode = 2) ∧
    (¬w.Fits (total paths) → w.fault = .brokenPipe →
      ∃ earlier path later, paths = earlier ++ path :: later ∧
        w.Fits (total earlier) ∧ ¬w.Fits (total (earlier ++ [path])) ∧
        ended.exitCode =
          (if (inputs.sources earlier).any Source.isFailed = true then 2
          else if (inputs.sources (earlier ++ [path])).any (Source.isMatched p) = true then 0
          else 1) ∧
        (o.count = false → ended.exitCode ≠ 1) ∧
        ∀ later' flushFault',
          searchAll p o (earlier ++ path :: later') flushFault' (start inputs w) = ended) := by
  intro total ended
  refine ⟨?_, fun hfits ↦ ⟨exitCode_of_fits hfits flushFault, fun paths' hperm ↦ ?_⟩,
    fun hcut hfault ↦ ?_, fun hcut hfault ↦ ?_⟩
  · exact congrArg Writer.written (writer_searchAll p o paths flushFault (start inputs w))
  · have hsources := inputs.sources_perm hperm
    have hlength : (total paths').length = (total paths).length :=
      (hsources.flatMap_right _).length_eq
    have hfits' : w.Fits (total paths') := fun room hroom ↦ hlength ▸ hfits room hroom
    rw [exitCode_of_fits hfits', exitCode_of_fits hfits, hsources.any_eq, hsources.any_eq]
  · obtain ⟨hend, hfailed⟩ := searchEach_of_other (s := start inputs w) hfault
    have hended : ended = (searchEach p o paths (start inputs w)).2.flush flushFault :=
      searchAll_of_end hend flushFault
    rw [hended, exitCode, isFailed_flush, hfailed (Or.inr hcut), Bool.true_or, if_pos rfl]
  · obtain ⟨earlier, path, later, hpaths, hbefore, hlast, stopped, hstop, hfailed, hmatched,
      hprint⟩ := searchEach_of_brokenPipe (s := start inputs w) hfault hcut
    have hended : ended = stopped := searchAll_of_stop (hpaths ▸ hstop later) flushFault
    refine ⟨earlier, path, later, hpaths, hbefore, hlast, ?_, fun hoption ↦ ?_,
      fun later' flushFault' ↦ ?_⟩
    · rw [hended, exitCode, hfailed, hmatched]
      rfl
    · rw [hended, exitCode, hprint hoption]
      split <;> decide
    · rw [hended, searchAll_of_stop (hstop later')]

theorem searchAll_exitCode_line :
    ∃ p events, Pattern.ofString "a" = .ok (p, events) ∧
      let inputs : Inputs := ⟨[], fun _ ↦ .ok (Text.encode "a\n")⟩
      let ended (w : Writer) :=
        searchAll p ⟨false, false, false, false⟩ ["f"] none (start inputs w)
      (ended .unlimited).exitCode = 0 ∧ (ended ⟨#[], some 1, .other⟩).exitCode = 2 ∧
      (ended ⟨#[], some 1, .brokenPipe⟩).exitCode ≠ 1 := by
  obtain ⟨p, events, hp, hmatches⟩ := Pattern.exists_matchesIn_eq
  refine ⟨p, events, hp, ?_⟩
  intro inputs ended
  have hsources : inputs.sources ["f"] = [⟨"f", .ok (Text.encode "a\n")⟩] := by
    have hpath : Path.isStandardInput "f" = false := by decide
    simp [Inputs.sources, Inputs.source, Inputs.content, displayName, hpath, inputs]
  have hprinted : Source.allPrinted p ⟨false, false, false, false⟩ (inputs.sources ["f"]) =
      Text.encode "a\n" := by
    rw [hsources, Source.allPrinted, List.flatMap_singleton, Source.printed_of_ok, Pattern.output,
      hmatches]
    rfl
  have hcut (fault : Fault) : ¬(⟨#[], some 1, fault⟩ : Writer).Fits
      (Source.allPrinted p ⟨false, false, false, false⟩ (inputs.sources ["f"])) := by
    rw [hprinted]
    exact fun h ↦ absurd (h 1 rfl) (by decide)
  have hsearch (w : Writer) := searchAll_exitCode p ⟨false, false, false, false⟩ inputs w ["f"] none
  refine ⟨?_, (hsearch ⟨#[], some 1, .other⟩).2.2.1 (hcut _) rfl, ?_⟩
  · rw [((hsearch .unlimited).2.1 (by simp [Writer.Fits, Writer.unlimited])).1, hsources]
    simp [Source.isFailed, Source.isMatched, hmatches]
  · obtain ⟨_, _, _, _, _, _, _, hcode, _⟩ :=
      (hsearch ⟨#[], some 1, .brokenPipe⟩).2.2.2 (hcut _) rfl
    exact hcode rfl

end SourcesSearch

end LineSearch
