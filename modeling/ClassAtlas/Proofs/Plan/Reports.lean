import ClassAtlas.Proofs.FileTree.Writing
import ClassAtlas.Proofs.Plan.Loading
import ClassAtlas.Proofs.Profile.Lines
import ClassAtlas.Proofs.Survey.Agreement
import ClassAtlas.Proofs.Survey.Sessions

/-!
# Profiles in their files

A plan that is carried out leaves the lines of each report in the file it is asked for in,
unless a later report goes to the same file. When the file of a profile is split at its newlines
again, the lines of the profile come back in pieces where they have newlines of their own. They
come back as they are exactly if no text that goes into one of them as it is has a newline: no
name, descriptor or signature of a class or member shown, and no name in an annotation. Nothing
in the decoder keeps such texts out.
-/

namespace ClassAtlas

open Text

def Profile.side (p : Profile) (isPublic : Bool) : List String :=
  if isPublic then p.publicLines.toList else p.packageLines.toList

/-- The report that one side of a profile is written to. -/
def ReportKind.ofSide (isPublic : Bool) : ReportKind :=
  if isPublic then .api else .ppi

theorem Findings.lines_ofSide (findings : Findings) (t : FileTree) (tree : String)
    (sourceRoots : List String) (isPublic : Bool) :
    findings.lines t tree sourceRoots (.ofSide isPublic) = findings.profile.side isPublic := by
  cases isPublic <;> rfl

theorem Profile.side_pairwise_lt (p : Profile) (isPublic : Bool) :
    (p.side isPublic).Pairwise (· < ·) := by
  have hordered (lines : Std.TreeSet String) : lines.toList.Pairwise (· < ·) :=
    lines.ordered_toList.imp compareOfLessAndEq_eq_lt.1
  cases isPublic
  · exact hordered p.packageLines
  · exact hordered p.publicLines

theorem FileTree.bind_eq_ok_iff {α β : Type} {x : EStateM Error FileTree α}
    {f : α → EStateM Error FileTree β} {t u : FileTree} {b : β} :
    (x >>= f) t = .ok b u ↔ ∃ a s, x t = .ok a s ∧ f a s = .ok b u := by
  change EStateM.bind x f t = .ok b u ↔ _
  unfold EStateM.bind
  cases x t with
  | error e s => simp
  | ok a s => simp

namespace Plan

variable {plan : Plan} {findings : Findings} {t u : FileTree} {kind : ReportKind} {path : String}

/-! ### Writing the reports -/

def writeReport (plan : Plan) (findings : Findings) (kind : ReportKind) :
    EStateM Error FileTree Unit := do
  if let some path := plan.reportPath? kind then
    FileTree.writeLines path (findings.lines (← get) plan.tree plan.sourceRoots kind)

theorem writeReports_eq (plan : Plan) (findings : Findings) :
    plan.writeReports findings = ReportKind.all.forM (plan.writeReport findings) :=
  rfl

theorem writeReport_of_none (h : plan.reportPath? kind = none) (t : FileTree) :
    plan.writeReport findings kind t = .ok () t := by
  unfold writeReport
  rw [h]
  rfl

theorem writeReport_of_some (h : plan.reportPath? kind = some path) (t : FileTree) :
    plan.writeReport findings kind t =
      FileTree.writeLines path (findings.lines t plan.tree plan.sourceRoots kind) t := by
  unfold writeReport
  rw [h]
  rfl

theorem writeReport_eq_ok (h : plan.writeReport findings kind t = .ok () u) :
    plan.reportPath? kind = none ∧ u = t ∨
      ∃ path location, plan.reportPath? kind = some path ∧ u.resolve path = .ok location ∧
        t.Grows u [location] ∧ u.node? location =
          some (.file (FileTree.linesContent
            (findings.lines t plan.tree plan.sourceRoots kind))) := by
  cases hpath : plan.reportPath? kind with
  | none =>
    rw [writeReport_of_none hpath] at h
    cases h
    exact Or.inl ⟨rfl, rfl⟩
  | some path =>
    rw [writeReport_of_some hpath] at h
    obtain ⟨location, hlocation, hgrows, hfile⟩ := FileTree.writeLines_eq_ok h
    exact Or.inr ⟨path, location, rfl, hlocation, hgrows, hfile⟩

variable {kinds : List ReportKind}

theorem forM_cons_eq_ok (h : (kind :: kinds).forM (plan.writeReport findings) t = .ok () u) :
    ∃ s, plan.writeReport findings kind t = .ok () s ∧
      kinds.forM (plan.writeReport findings) s = .ok () u := by
  obtain ⟨_, s, hfirst, hrest⟩ := FileTree.bind_eq_ok_iff.1 h
  exact ⟨s, hfirst, hrest⟩

/-- Reports are written to the places that their paths lead to in the end, and nowhere else. -/
theorem grows_of_forM (h : kinds.forM (plan.writeReport findings) t = .ok () u) :
    ∃ places, t.Grows u places ∧ ∀ location ∈ places, ∃ kind ∈ kinds, ∃ path,
      plan.reportPath? kind = some path ∧ u.resolve path = .ok location := by
  induction kinds generalizing t with
  | nil =>
    cases h
    exact ⟨[], .refl u, by simp⟩
  | cons kind kinds ih =>
    obtain ⟨s, hfirst, hrest⟩ := forM_cons_eq_ok h
    obtain ⟨places, hgrows, hplaces⟩ := ih hrest
    have hlater : ∀ location ∈ places, ∃ other ∈ kind :: kinds, ∃ path,
        plan.reportPath? other = some path ∧ u.resolve path = .ok location := by
      intro location hlocation
      obtain ⟨other, hother, hpath⟩ := hplaces location hlocation
      exact ⟨other, List.mem_cons_of_mem _ hother, hpath⟩
    obtain ⟨-, rfl⟩ | ⟨path, location, hpath, hresolve, hwritten, -⟩ := writeReport_eq_ok hfirst
    · exact ⟨places, hgrows, hlater⟩
    · refine ⟨location :: places, hwritten.trans hgrows, List.forall_mem_cons.2 ⟨?_, hlater⟩⟩
      exact ⟨kind, List.mem_cons_self, path, hpath, hgrows.resolve hresolve⟩

/-- No other report goes to the file that a path leads to. -/
def HasOwnFile (plan : Plan) (u : FileTree) (kind : ReportKind) (path : String) : Prop :=
  ∀ other otherPath, other ≠ kind → plan.reportPath? other = some otherPath →
    u.resolve otherPath ≠ u.resolve path

/-- The lines of a report are in its file when all reports are written. -/
theorem read_of_forM (h : kinds.forM (plan.writeReport findings) t = .ok () u)
    (hnodup : kinds.Nodup) (hkind : kind ∈ kinds) (hpath : plan.reportPath? kind = some path)
    (hown : plan.HasOwnFile u kind path) :
    ∃ s, u.read path = .ok (FileTree.linesContent
      (findings.lines s plan.tree plan.sourceRoots kind)) := by
  induction kinds generalizing t with
  | nil => contradiction
  | cons first kinds ih =>
    obtain ⟨s, hfirst, hrest⟩ := forM_cons_eq_ok h
    obtain ⟨hnot, hnodup⟩ := List.nodup_cons.1 hnodup
    rcases List.mem_cons.1 hkind with rfl | hkind
    -- The report itself: what is written after it goes elsewhere.
    · obtain ⟨hnone, -⟩ | ⟨other, location, hother, hresolve, -, hfile⟩ :=
        writeReport_eq_ok hfirst
      · rw [hnone] at hpath
        contradiction
      · obtain rfl : other = path := Option.some.inj (hother.symm.trans hpath)
        obtain ⟨places, hgrows, hplaces⟩ := grows_of_forM hrest
        have hkept : location ∉ places := by
          intro hmem
          obtain ⟨later, hlater, laterPath, hlaterPath, hsame⟩ := hplaces location hmem
          refine hown later laterPath ?_ hlaterPath ?_
          · rintro rfl
            exact hnot hlater
          · rw [hsame, hgrows.resolve hresolve]
        exact ⟨t, FileTree.read_eq_ok (hgrows.resolve hresolve) (hgrows.kept hkept hfile)⟩
    · exact ih hrest hnodup hkind

theorem carryOut_eq_ok : plan.carryOut t = .ok findings u ↔
    plan.analyze t = .ok findings ∧ plan.writeReports findings t = .ok () u := by
  unfold carryOut
  rw [FileTree.bind_eq_ok_iff]
  constructor
  · rintro ⟨s, v, hget, hrest⟩
    have hsame : s = t ∧ v = t := by
      cases hget
      exact ⟨rfl, rfl⟩
    rw [hsame.1, hsame.2] at hrest
    cases hanalyze : plan.analyze t with
    | error e =>
      rw [hanalyze] at hrest
      contradiction
    | ok found =>
      rw [hanalyze, FileTree.bind_eq_ok_iff] at hrest
      obtain ⟨_, v, hwritten, hfound⟩ := hrest
      cases hfound
      exact ⟨rfl, hwritten⟩
  · rintro ⟨hanalyze, hwritten⟩
    refine ⟨t, t, rfl, ?_⟩
    rw [hanalyze, FileTree.bind_eq_ok_iff]
    exact ⟨(), u, hwritten, rfl⟩

theorem read_profile {isPublic : Bool} (h : plan.carryOut t = .ok findings u)
    (hpath : plan.reportPath? (.ofSide isPublic) = some path)
    (hown : plan.HasOwnFile u (.ofSide isPublic) path) :
    u.read path = .ok (FileTree.linesContent (findings.profile.side isPublic)) := by
  obtain ⟨-, hwritten⟩ := carryOut_eq_ok.1 h
  rw [writeReports_eq] at hwritten
  have hall : ReportKind.ofSide isPublic ∈ ReportKind.all := by cases isPublic <;> decide
  obtain ⟨s, hread⟩ := read_of_forM hwritten (by decide) hall hpath hown
  rw [hread, findings.lines_ofSide]

/-! ### What the profiles of a plan hold -/

/-- A line of a profile is that of something shown in the class file of an internal class. -/
theorem mem_side_iff (h : plan.analyze t = .ok findings) (isPublic : Bool) (line : String) :
    line ∈ findings.profile.side isPublic ↔
      ∃ name ∈ findings.frontier.internal, ∃ c,
        Survey.IsFileOf (t.loadClass plan.classRoots) name c ∧
          ∃ shown ∈ c.shownOwners, (isPublic → shown.2.isPublicSurface) ∧ shown.1.line = line := by
  obtain ⟨starts, s, visited, -, hcomplete, rfl⟩ := complete_of_analyze h
  have hholds := hcomplete.progress.profile
  have hside : line ∈ s.profile.side isPublic ↔ ∃ c ∈ visited.map Prod.snd, ∃ level,
      (line, level) ∈ c.shownLines ∧ (isPublic → level.isPublicSurface) := by
    cases isPublic with
    | false => simpa [Profile.side] using hholds.mem_package line
    | true => simpa [Profile.side] using hholds.mem_public line
  rw [hside]
  constructor
  · rintro ⟨c, hc, level, hline, hpublic⟩
    obtain ⟨name, hname, hfile⟩ := (hcomplete.mem_visited_iff c).1 hc
    rw [c.shownLines_eq_map] at hline
    obtain ⟨shown, hshown, heq⟩ := List.mem_map.1 hline
    obtain ⟨rfl, rfl⟩ := Prod.mk.inj heq
    exact ⟨name, hname, c, hfile, shown, hshown, hpublic, rfl⟩
  · rintro ⟨name, hname, c, hfile, shown, hshown, hpublic, rfl⟩
    refine ⟨c, (hcomplete.mem_visited_iff c).2 ⟨name, hname, hfile⟩, shown.2, ?_, hpublic⟩
    rw [c.shownLines_eq_map]
    exact List.mem_map_of_mem hshown

/-- When a plan was carried out, the file of a profile splits at its newlines into what the lines
of the profile split into. These are the lines themselves, which are in order, exactly if no text
with a newline goes as it is into a line that the class file of an internal class shows. -/
theorem profile_file_lines (h : plan.carryOut t = .ok findings u) (isPublic : Bool)
    (hpath : plan.reportPath? (.ofSide isPublic) = some path)
    (hown : plan.HasOwnFile u (.ofSide isPublic) path) :
    ∃ content, u.read path = .ok content.toUTF8.toList ∧
      (findings.profile.side isPublic).Pairwise (· < ·) ∧
      linesOf content = (findings.profile.side isPublic).flatMap pieces ∧
      (linesOf content = findings.profile.side isPublic ↔
        ∀ name ∈ findings.frontier.internal, ∀ c,
          Survey.IsFileOf (t.loadClass plan.classRoots) name c →
            ∀ shown ∈ c.shownOwners, (isPublic → shown.2.isPublicSurface) →
              ∀ text, shown.1.parts.Shows c.pool text → IsOneLine text) := by
  refine ⟨_, read_profile h hpath hown, findings.profile.side_pairwise_lt isPublic,
    linesOf_join _, ?_⟩
  have hside := mem_side_iff (carryOut_eq_ok.1 h).1 isPublic
  rw [linesOf_join_eq_self_iff]
  constructor
  · intro hlines name hname c hc shown hshown hpublic
    obtain ⟨bytes, hload, hdecode⟩ := hc
    have hline := (hside _).2
      ⟨name, hname, c, ⟨bytes, hload, hdecode⟩, shown, hshown, hpublic, rfl⟩
    exact (ClassFile.isOneLine_iff_of_decode hdecode hshown).1 (hlines _ hline)
  · intro htexts line hline
    obtain ⟨name, hname, c, hc, shown, hshown, hpublic, rfl⟩ := (hside line).1 hline
    have htexts := htexts name hname c hc shown hshown hpublic
    obtain ⟨bytes, -, hdecode⟩ := hc
    exact (ClassFile.isOneLine_iff_of_decode hdecode hshown).2 htexts

/-! ### Profiles with one field -/

/-- A survey that ends after a few visits ends the same way for a plan. -/
theorem analyze_of_finished {starts : List ClassId} {s : Survey} {asked : List ClassName}
    {visits : Nat} (hvisits : visits ≤ visitBound) (hstarts : plan.starts t = .ok starts)
    (h : Survey.run (Survey.traced (t.loadClass plan.classRoots)) visits
      (Survey.fresh (.ofClassPath t plan.classRoots) plan.followsMembers starts) [] =
        ((.finished, s), asked)) :
    plan.analyze t = .ok ⟨s.profile, s.frontier, s.analyzed⟩ := by
  have htraced : plan.tracedRun t starts = ((.finished, s), asked) := by
    unfold tracedRun StateT.run
    -- The bound is too great to be evaluated.
    generalize visitBound = bound at hvisits ⊢
    obtain ⟨more, rfl⟩ := Nat.exists_eq_add_of_le hvisits
    rw [Survey.run_add_of_ne_unfinished more (by simp [h]), h]
  rw [analyze_of_starts_ok hstarts, htraced]
  rfl

theorem two_le_visitBound : 2 ≤ visitBound := by
  rw [visitBound_eq]
  have hpath : FileTree.maxPath ≠ 0 := by decide
  generalize FileTree.maxPath = length at hpath
  exact le_trans (by decide) (Nat.le_self_pow hpath 256)

/-- The file of a class `A` with a field of the given name, whose value is a newline. -/
def fieldFile (name : List UInt8) : List UInt8 :=
  [0xCA, 0xFE, 0xBA, 0xBE, 0, 0, 0, 52, 0, 8, 1, 0, 1, 65, 7, 0, 1, 1, 0, .ofNat name.length] ++
    name ++ [1, 0, 1, 73, 1, 0, 13] ++ "ConstantValue".toUTF8.toList ++
    [1, 0, 1, 10, 8, 0, 6, 0, 0x21, 0, 2, 0, 0, 0, 0, 0, 1, 0, 1, 0, 3, 0, 4, 0, 1, 0, 5, 0, 0, 0, 2,
      0, 7, 0, 0, 0, 0]

def fieldTree (name : List UInt8) : FileTree where
  nodes := .ofList [(["r"], FileNode.directory), (["r", "A.class"], .file (fieldFile name))]

def fieldPlan : Plan where
  classRoots := ["r"]
  roots := [.ofName (.ofText "A")]
  reports := [(.api, "api"), (.ppi, "out/ppi")]

def fieldRun (name : List UInt8) : (Run × Survey) × List ClassName :=
  (Survey.run (Survey.traced ((fieldTree name).loadClass fieldPlan.classRoots)) 2
    (Survey.fresh (.ofClassPath (fieldTree name) fieldPlan.classRoots) fieldPlan.followsMembers
      fieldPlan.roots)) []

def fieldFindings (name : List UInt8) : Findings :=
  let s := (fieldRun name).1.2
  ⟨s.profile, s.frontier, s.analyzed⟩

def fieldReports (name : List UInt8) : FileTree :=
  FileTree.leftBy (fieldPlan.writeReports (fieldFindings name) (fieldTree name))

def fieldSucceeds (name : List UInt8) : Bool :=
  (match (fieldRun name).1.1 with
    | .finished => true
    | _ => false) &&
  match fieldPlan.writeReports (fieldFindings name) (fieldTree name) with
  | .ok _ _ => true
  | .error _ _ => false

theorem carryOut_fieldPlan {name : List UInt8} (h : fieldSucceeds name = true) :
    fieldPlan.carryOut (fieldTree name) = .ok (fieldFindings name) (fieldReports name) := by
  obtain ⟨hfinished, hwritten⟩ := Bool.and_eq_true_iff.1 h
  refine carryOut_eq_ok.2 ⟨?_, ?_⟩
  · have hstarts : fieldPlan.starts (fieldTree name) = .ok fieldPlan.roots := rfl
    rcases hrun : fieldRun name with ⟨⟨_ | cause | _, s⟩, asked⟩
    · rw [fieldFindings, hrun]
      exact analyze_of_finished two_le_visitBound hstarts hrun
    · simp [hrun] at hfinished
    · simp [hrun] at hfinished
  · unfold fieldReports
    cases hresult : fieldPlan.writeReports (fieldFindings name) (fieldTree name) with
    | ok _ u => rfl
    | error e u => simp [hresult] at hwritten

theorem reportPath?_fieldPlan {other : ReportKind} {path : String} (hother : other ≠ .api)
    (h : fieldPlan.reportPath? other = some path) : path = "out/ppi" := by
  cases other with
  | api => exact absurd rfl hother
  | ppi => exact (Option.some.inj h).symm
  | list | deps | srclist | imports | exports => contradiction

theorem hasOwnFile_fieldPlan {name : List UInt8}
    (h : ((fieldReports name).resolve "out/ppi").toOption ≠
      ((fieldReports name).resolve "api").toOption) :
    fieldPlan.HasOwnFile (fieldReports name) .api "api" := by
  intro other path hother hpath hsame
  rw [reportPath?_fieldPlan hother hpath] at hsame
  exact h (congrArg Except.toOption hsame)

theorem profile_file_lines_quoted :
    fieldPlan.carryOut (fieldTree [120]) = .ok (fieldFindings [120]) (fieldReports [120]) ∧
      ∃ content, (fieldReports [120]).read "api" = .ok content.toUTF8.toList ∧
        linesOf content = ["A class public ", "A.x field public I=\"\\n\""] ∧
        linesOf content = (fieldFindings [120]).profile.side true := by
  have hcarry := @carryOut_fieldPlan [120] (by decide +kernel)
  have hown := @hasOwnFile_fieldPlan [120] (by decide +kernel)
  have hside : (fieldFindings [120]).profile.side true =
      ["A class public ", "A.x field public I=\"\\n\""] := by decide +kernel
  have hpieces : ["A class public ", "A.x field public I=\"\\n\""].flatMap pieces =
      ["A class public ", "A.x field public I=\"\\n\""] := by decide +kernel
  obtain ⟨content, hread, -, hlines, -⟩ := profile_file_lines hcarry true rfl hown
  rw [hside, hpieces] at hlines
  exact ⟨hcarry, content, hread, hlines, hlines.trans hside.symm⟩

/-- A newline in the name of a field stays in the line of the field, which comes back as two. The
newline that is the value of the field is quoted. -/
theorem exists_broken_line :
    ∃ (plan : Plan) (t : FileTree) (findings : Findings) (u : FileTree),
      plan.carryOut t = .ok findings u ∧
      plan.reportPath? .api = some "api" ∧
      findings.profile.publicLines.toList =
        ["A class public ", "A.x\ny field public I=\"\\n\""] ∧
      ∃ content, u.read "api" = .ok content.toUTF8.toList ∧
        linesOf content = ["A class public ", "A.x", "y field public I=\"\\n\""] ∧
        linesOf content ≠ findings.profile.publicLines.toList := by
  have hcarry := @carryOut_fieldPlan [120, 10, 121] (by decide +kernel)
  have hown := @hasOwnFile_fieldPlan [120, 10, 121] (by decide +kernel)
  have hside : (fieldFindings [120, 10, 121]).profile.publicLines.toList =
      ["A class public ", "A.x\ny field public I=\"\\n\""] := by decide +kernel
  have hread := @read_profile _ _ _ _ _ true hcarry rfl hown
  rw [Profile.side, if_pos rfl, hside, FileTree.linesContent] at hread
  refine ⟨fieldPlan, _, _, _, hcarry, rfl, hside, _, hread, by decide +kernel, ?_⟩
  rw [hside]
  decide +kernel

end Plan

end ClassAtlas
