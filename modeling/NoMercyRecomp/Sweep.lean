import NoMercyRecomp.Findings
import NoMercyRecomp.RecompLoop

/-!
# The co-residency sweep

`nm_sweep` turns the findings of `audit_coresidency` and `fix_backbranches` into entries of
`extra_funcs.txt`, regenerates the table, recompiles, and repeats, for at most eleven rounds
with at most five repetitions of `fix_backbranches` in each.

A finding is a target at which its section starts no function. An entry that is written for
it makes the section start one there in every table that is regenerated afterwards, unless
the function is suppressed, so it is not found again. Over a whole run no section and target
gets two entries.

The generated files change between the steps in ways that do not matter here: which files
each tool reads, what N64Recomp answers, and whether a tool succeeds, is given for every
step.
-/

namespace NoMercyRecomp.Sweep

open TextScan SymbolTable SymbolReaders ExtraFuncs Findings RecompLoop

/-! ## Adding entries -/

/-- An entry that `add_entries` writes. -/
structure Added where
  sec : Line
  target : Nat
  size : Nat
deriving DecidableEq

/-- Its line. -/
def Added.line (a : Added) : Line := entryLine a.sec a.target a.size

/-- The functions of a section. -/
def ofSection (dump : Dump) (sec : Line) : List Func :=
  ((entries dump).filter (fun e => e.1 == sec)).map Prod.snd

/-- `v <= t < v + z` -/
def contains (f : Func) (target : Nat) : Bool :=
  decide (f.vram ≤ target) && decide (target < f.vram + f.size)

/-- `end`: the furthest end of a function of the section that contains the target; if none
does, the next start of the section. -/
def spanEnd (dump : Dump) (sec : Line) (target : Nat) : Option Nat :=
  match (((ofSection dump sec).filter (fun f => contains f target)).map
    (fun f => f.vram + f.size)).max? with
  | some stop => some stop
  | none => (((ofSection dump sec).filter (fun f => decide (target < f.vram))).map Func.vram).min?

/-- `add_entries`: the entries that are written for a set of findings, in order. An entry
whose line is in the file already is left out. -/
def addEntries (dump : Dump) (extra : List Line) (pairs : Finset (Line ×ₗ Nat)) : List Added :=
  (Finset.sort pairs).filterMap (fun pair =>
    (spanEnd dump (ofLex pair).1 (ofLex pair).2).bind (fun stop =>
      let added : Added := ⟨(ofLex pair).1, (ofLex pair).2, stop - (ofLex pair).2⟩
      if (extra.map strip).contains added.line then none else some added))

/-! ## The sweep -/

/-- What a regeneration meets: whether `gen_stubs` succeeds, and N64Recomp's answers. -/
structure Build where
  stubs : Bool
  replies : Nat → Reply

/-- What one repetition of the inner loop meets: whether `fix_stumps` and `fix_switches`
succeed, the files that `fix_backbranches` reads, and the regeneration. -/
structure InnerReply where
  fixed : Bool
  tree : List (List Line)
  build : Build

/-- What one round meets: the files that the audit reads, the regeneration, the inner loop,
and whether `readd_hand_edits` succeeds. -/
structure RoundReply where
  tree : List (List Line)
  build : Build
  inner : Nat → InnerReply
  handEdits : Bool

/-- The files, and every entry that `add_entries` has written in the run. -/
structure Progress where
  files : State
  added : List Added

/-- A part of the sweep exits the script or continues it. -/
inductive Outcome where
  | exit (code : Int) (p : Progress)
  | next (p : Progress)

def Outcome.progress : Outcome → Progress
  | .exit _ p => p
  | .next p => p

variable (disasm : Disassembly)

/-- `gen_symbols`, `gen_stubs` and `recomp_loop`, which must all succeed. -/
def rebuild (build : Build) (s : State) : Option State :=
  match genSymbols disasm s.extra with
  | none => none
  | some dump =>
    let finish := RecompLoop.main disasm build.replies { s with dump := dump }
    if build.stubs ∧ finish.code = 0 then some finish.files else none

/-- The files and the record with the entries added for a set of findings. -/
def Progress.add (p : Progress) (pairs : Finset (Line ×ₗ Nat)) : Progress :=
  let added := addEntries p.files.dump p.files.extra pairs
  { files := { p.files with
    extra := p.files.extra ++ added.map Added.line }, added := p.added ++ added }

/-- Entries are added for a set of findings, and the tables rebuilt; it is an error when no
entry can be added. -/
def repair (build : Build) (pairs : Finset (Line ×ₗ Nat)) (p : Progress) : Outcome :=
  if addEntries p.files.dump p.files.extra pairs = [] then .exit 1 p
  else match rebuild disasm build (p.add pairs).files with
  | none => .exit 1 (p.add pairs)
  | some files => .next { p.add pairs with files := files }

/-- The inner loop: `fix_backbranches` may need entries of its own. -/
def backbranches (replies : Nat → InnerReply) : Nat → Nat → Progress → Outcome
  | 0, _, p => .next p
  | left + 1, count, p =>
    let reply := replies count
    let miss := found missingRe (branchOutput p.files.dump reply.tree)
    if !reply.fixed then .exit 1 p
    else if miss = ∅ then .next p
    else match repair disasm reply.build miss p with
    | .exit code p => .exit code p
    | .next p => backbranches replies left (count + 1) p

/-- One round. -/
def round (reply : RoundReply) (p : Progress) : Outcome :=
  let pairs := found violRe (auditOutput p.files.dump reply.tree)
  if pairs = ∅ then .exit 0 p
  else match repair disasm reply.build pairs p with
  | .exit code p => .exit code p
  | .next p =>
    match backbranches disasm reply.inner 5 0 p with
    | .exit code p => .exit code p
    | .next p => if reply.handEdits then .next p else .exit 1 p

/-- The rounds from `count` on. -/
def rounds (replies : Nat → RoundReply) : Nat → Nat → Progress → Int × Progress
  | 0, _, p => (1, p)
  | left + 1, count, p =>
    match round disasm (replies count) p with
    | .exit code p => (code, p)
    | .next p => rounds replies left (count + 1) p

/-- The script: rounds 1 to 11. -/
def main (replies : Nat → RoundReply) (s : State) : Int × Progress :=
  rounds disasm replies 11 1 ⟨s, []⟩

/-! ## Entries -/

/-- The end of an entry's span: the furthest end of a function of the section that contains
the target, or, if none does, the next start of the section. -/
def Spans (dump : Dump) (sec : Line) (target stop : Nat) : Prop :=
  IsGreatest {e | ∃ f, (sec, f) ∈ entries dump ∧ contains f target = true ∧
      f.vram + f.size = e} stop ∨
    (∀ f, (sec, f) ∈ entries dump → contains f target = false) ∧
      IsLeast {v | ∃ f, (sec, f) ∈ entries dump ∧ f.vram = v ∧ target < v} stop

/-- The functions of a section are the entries under its name. -/
theorem mem_ofSection (dump : Dump) (sec : Line) (f : Func) :
    f ∈ ofSection dump sec ↔ (sec, f) ∈ entries dump := by
  simp [ofSection]

/-- The computed end is the end of the span; it lies behind the target, and the section has
a function. -/
theorem spanEnd_spans (dump : Dump) (sec : Line) (target stop : Nat)
    (ends : spanEnd dump sec target = some stop) :
    Spans dump sec target stop ∧ target < stop ∧ ∃ f, (sec, f) ∈ entries dump := by
  rw [spanEnd] at ends
  split at ends
  · rename_i furthest most
    obtain rfl := Option.some.inj ends
    obtain ⟨member, bound⟩ := List.max?_eq_some_iff.mp most
    obtain ⟨f, inside, rfl⟩ := List.mem_map.mp member
    obtain ⟨among, covers⟩ := List.mem_filter.mp inside
    have listed := (mem_ofSection dump sec f).mp among
    refine ⟨Or.inl ⟨⟨f, listed, covers, rfl⟩, ?_⟩, ?_, f, listed⟩
    · rintro _ ⟨g, listed', covers', rfl⟩
      apply bound
      exact List.mem_map_of_mem
        (List.mem_filter.mpr ⟨(mem_ofSection dump sec g).mpr listed', covers'⟩)
    · simp only [contains, Bool.and_eq_true, decide_eq_true_eq] at covers
      exact covers.2
  · rename_i none
    obtain ⟨member, bound⟩ := List.min?_eq_some_iff.mp ends
    obtain ⟨f, above, rfl⟩ := List.mem_map.mp member
    obtain ⟨among, behind⟩ := List.mem_filter.mp above
    have listed := (mem_ofSection dump sec f).mp among
    have behind : target < f.vram := of_decide_eq_true behind
    refine ⟨Or.inr ⟨?_, ⟨f, listed, rfl, behind⟩, ?_⟩, behind, f, listed⟩
    · intro g listed'
      have empty := List.max?_eq_none_iff.mp none
      rw [List.map_eq_nil_iff, List.filter_eq_nil_iff] at empty
      simpa using empty g ((mem_ofSection dump sec g).mpr listed')
    · rintro _ ⟨g, listed', rfl, behind'⟩
      apply bound
      refine List.mem_map_of_mem (List.mem_filter.mpr ⟨(mem_ofSection dump sec g).mpr listed', ?_⟩)
      exact decide_eq_true behind'

/-- A written entry is for one of the findings, and spans to its end: that of a function which
contains the target, or else the next start in its section. -/
theorem addEntries_spec (dump : Dump) (extra : List Line) (pairs : Finset (Line ×ₗ Nat)) (a : Added)
    (written : a ∈ addEntries dump extra pairs) :
    toLex (a.sec, a.target) ∈ pairs ∧ Spans dump a.sec a.target (a.target + a.size) ∧
    a.sec ∈ secPositions dump := by
  obtain ⟨pair, among, made⟩ := List.mem_filterMap.mp written
  obtain ⟨stop, ends, kept⟩ := Option.bind_eq_some_iff.mp made
  obtain ⟨spans, behind, f, listed⟩ := spanEnd_spans dump _ _ stop ends
  dsimp only at kept
  split at kept
  · cases kept
  · obtain rfl := Option.some.inj kept
    obtain ⟨s, inDump, same, _⟩ := entries_section dump _ f listed
    have whole : (ofLex pair).2 + (stop - (ofLex pair).2) = stop := by omega
    refine ⟨(Finset.mem_sort _).mp among, ?_, List.mem_map.mpr ⟨s, inDump, same⟩⟩
    rw [whole]
    exact spans

/-- No two entries are written at once for a section and target. The findings are a set, sorted,
and each of them gives at most one entry, with its own section and target. -/
theorem addEntries_nodup (dump : Dump) (extra : List Line) (pairs : Finset (Line ×ₗ Nat)) :
    ((addEntries dump extra pairs).map (fun a => (a.sec, a.target))).Nodup := by
  have places : ((addEntries dump extra pairs).map (fun a => toLex (a.sec, a.target))).Sublist
      (Finset.sort pairs) := by
    rw [addEntries, List.map_filterMap]
    generalize Finset.sort pairs = list
    induction list with
    | nil => simp
    | cons pair list inductionHypothesis =>
      rw [List.filterMap_cons]
      split
      · exact inductionHypothesis.cons _
      · rename_i place made
        obtain ⟨a, found, rfl⟩ := Option.map_eq_some_iff.mp made
        obtain ⟨stop, _, kept⟩ := Option.bind_eq_some_iff.mp found
        dsimp only at kept
        split at kept
        · cases kept
        · obtain rfl := Option.some.inj kept
          exact inductionHypothesis.cons_cons _
  have distinct := places.nodup (Finset.sort_nodup _ _)
  rw [List.nodup_map_iff_inj_on (List.Nodup.of_map _ distinct)]
  intro a inA b inB same
  exact List.inj_on_of_nodup_map distinct inA inB (by rw [same])

/-! ## Findings do not return -/

/-- What a written entry settles: it spans as it should, and unless its function is
suppressed, every table regenerated from the file with the new lines starts a function at
its place, where neither tool's output holds the finding again. -/
structure Settles (s : State) (pairs : Finset (Line ×ₗ Nat)) (a : Added) : Prop where
  spans : Spans s.dump a.sec a.target (a.target + a.size)
  starts : funcName a.target ∉ disasm.skip → ∀ lines dump,
    s.extra ++ (addEntries s.dump s.extra pairs).map Added.line ⊆ lines →
      genSymbols disasm lines = some dump → startsAt dump a.sec a.target = true
  silent : funcName a.target ∉ disasm.skip → ∀ lines dump,
    s.extra ++ (addEntries s.dump s.extra pairs).map Added.line ⊆ lines →
      genSymbols disasm lines = some dump →
      ∀ files, toLex (a.sec, a.target) ∉ found violRe (auditOutput dump files) ∧
        toLex (a.sec, a.target) ∉ found missingRe (branchOutput dump files)

/-- The sections of a table of the disassembly are named by words. -/
theorem lists_words (dump : Dump) (lists : Lists disasm dump) :
    ∀ sec ∈ secPositions dump, WordName sec := by
  intro sec member
  exact (disasm.names_word sec (lists ▸ member)).1

/-- A finding of either tool is no start of its section. -/
def Silent (dump : Dump) (pairs : Finset (Line ×ₗ Nat)) : Prop :=
  ∀ sec target, toLex (sec, target) ∈ pairs → startsAt dump sec target = false ∨ sec = str "None"

/-- The audit finds no start of a section: it calls a target a violation just because the section
has none there. -/
theorem violations_silent (dump : Dump) (lists : Lists disasm dump) (files : List (List Line)) :
    Silent dump (found violRe (auditOutput dump files)) := by
  intro sec target isFound
  exact Or.inl (found_violation dump (lists_words disasm dump lists) files sec target isFound)

/-- The branch pass misses no start of a section, unless the section is not known. -/
theorem missing_silent (dump : Dump) (lists : Lists disasm dump) (files : List (List Line)) :
    Silent dump (found missingRe (branchOutput dump files)) :=
  found_missing dump (lists_words disasm dump lists) files

/-- A start of a section is not found. -/
theorem Silent.absent (dump : Dump) (pairs : Finset (Line ×ₗ Nat)) (silent : Silent dump pairs)
    (sec : Line)
    (target : Nat) (known : sec ∈ disasm.names) (starts : startsAt dump sec target = true) :
    toLex (sec, target) ∉ pairs := by
  intro member
  rcases silent sec target member with absent | none
  · simp [starts] at absent
  · exact (disasm.names_word sec known).2 none

/-- Every written entry is settled. Its line is there when the table is regenerated, so its
section has a function at it, and neither audit reports it again. -/
theorem addEntries_settles (s : State) (lists : Lists disasm s.dump) (pairs : Finset (Line ×ₗ Nat))
    (a : Added) (written : a ∈ addEntries s.dump s.extra pairs) : Settles disasm s pairs a := by
  obtain ⟨_, spans, listed⟩ := addEntries_spec s.dump s.extra pairs a written
  have known : a.sec ∈ disasm.names := lists ▸ listed
  have solid : Solid a.sec := WordName.solid _ (disasm.names_word a.sec known).1
  have starts : funcName a.target ∉ disasm.skip → ∀ lines dump,
      s.extra ++ (addEntries s.dump s.extra pairs).map Added.line ⊆ lines →
        genSymbols disasm lines = some dump → startsAt dump a.sec a.target = true := by
    intro kept lines dump grown made
    have present : a.line ∈ lines := grown (List.mem_append_right _ (List.mem_map_of_mem written))
    exact genSymbols_startsAt disasm lines dump made a.sec a.target a.size solid known present kept
  refine ⟨spans, starts, ?_⟩
  intro kept lines dump grown made files
  have lists' := genSymbols_lists disasm lines dump made
  have start := starts kept lines dump grown made
  exact ⟨(violations_silent disasm dump lists' files).absent disasm dump _ a.sec a.target known
    start,
    (missing_silent disasm dump lists' files).absent disasm dump _ a.sec a.target known start⟩

/-! ## Runs -/

/-- The places of the entries whose functions are not suppressed. -/
def places (added : List Added) : List (Line × Nat) :=
  (added.filter (fun a => !disasm.skip.contains (funcName a.target))).map
    (fun a => (a.sec, a.target))

/-- The record of a run: its entries are in the file, and no place occurs twice. -/
structure Logged (p : Progress) : Prop where
  lists : Lists disasm p.files.dump
  known : ∀ a ∈ p.added, a.sec ∈ disasm.names
  present : ∀ a ∈ p.added, a.line ∈ p.files.extra
  once : (places disasm p.added).Nodup

/-- The table starts a function at the place of every entry of the run. -/
def Fresh (p : Progress) : Prop :=
  ∀ a ∈ p.added, funcName a.target ∉ disasm.skip → startsAt p.files.dump a.sec a.target = true

/-- A place is that of an entry whose function is not suppressed. -/
theorem mem_places (added : List Added) (sec : Line) (target : Nat) :
    (sec, target) ∈ places disasm added ↔
    ∃ a ∈ added, funcName a.target ∉ disasm.skip ∧ a.sec = sec ∧ a.target = target := by
  simp [places, and_assoc]

/-- Adding entries for findings that the table does not start repeats no place. An entry that was
logged and kept starts its target in the table, so a finding at its place would not have been
made. -/
theorem add_logged (p : Progress) (pairs : Finset (Line ×ₗ Nat)) (logged : Logged disasm p)
    (fresh : Fresh disasm p)
    (silent : Silent p.files.dump pairs) : Logged disasm (p.add pairs) := by
  constructor
  · exact logged.lists
  · intro a member
    rcases List.mem_append.mp member with earlier | written
    · exact logged.known a earlier
    · exact logged.lists ▸ (addEntries_spec _ _ _ a written).2.2
  · intro a member
    rcases List.mem_append.mp member with earlier | written
    · exact List.mem_append_left _ (logged.present a earlier)
    · exact List.mem_append_right _ (List.mem_map_of_mem written)
  · have split : places disasm (p.add pairs).added =
        places disasm p.added ++ places disasm (addEntries p.files.dump p.files.extra pairs) := by
      simp [places, Progress.add]
    have new : (places disasm (addEntries p.files.dump p.files.extra pairs)).Nodup :=
      (List.filter_sublist.map _).nodup (addEntries_nodup p.files.dump p.files.extra pairs)
    rw [split]
    apply List.Nodup.append logged.once new
    rintro ⟨sec, target⟩ earlier later
    obtain ⟨a, inLog, kept, rfl, rfl⟩ := (mem_places disasm _ sec target).mp earlier
    obtain ⟨b, written, _, sameSec, sameTarget⟩ := (mem_places disasm _ _ _).mp later
    have isFound := (addEntries_spec _ _ _ b written).1
    rw [sameSec, sameTarget] at isFound
    exact silent.absent disasm _ _ a.sec a.target (logged.known a inLog)
      (fresh a inLog kept) isFound

/-- A rebuilt table starts every logged entry that the lists do not skip: the iterations leave the
table current and lose no entry, and a current table has a function at each of them. -/
theorem rebuild_fresh (build : Build) (p : Progress) (files : State) (logged : Logged disasm p)
    (rebuilt : rebuild disasm build p.files = some files) :
    Logged disasm { p with files := files } ∧ Fresh disasm { p with files := files } := by
  rw [rebuild] at rebuilt
  split at rebuilt
  · cases rebuilt
  · rename_i dump made
    dsimp only at rebuilt
    split at rebuilt
    · rename_i success
      obtain rfl := Option.some.inj rebuilt
      obtain ⟨current, grown⟩ :=
        main_current disasm build.replies { p.files with dump := dump } made success.2
      have logged' : Logged disasm
          { p with files := (RecompLoop.main disasm build.replies { p.files with
              dump := dump }).files } :=
        ⟨genSymbols_lists disasm _ _ current, logged.known,
          fun a member => grown (logged.present a member), logged.once⟩
      refine ⟨logged', ?_⟩
      intro a member kept
      have known := logged.known a member
      have solid : Solid a.sec := WordName.solid _ (disasm.names_word a.sec known).1
      exact genSymbols_startsAt disasm _ _ current a.sec a.target a.size solid known
        (logged'.present a member) kept
    · cases rebuilt

/-- What every part of the sweep keeps: the record is logged, and where the sweep goes on,
the table is fresh. -/
def Kept : Outcome → Prop
  | .exit _ p => Logged disasm p
  | .next p => Logged disasm p ∧ Fresh disasm p

/-- A repair for silent findings keeps the log: no entry is one that was written before, and the
regenerated table starts a function at each new place. -/
theorem repair_kept (build : Build) (pairs : Finset (Line ×ₗ Nat)) (p : Progress)
    (logged : Logged disasm p) (fresh : Fresh disasm p) (silent : Silent p.files.dump pairs) :
    Kept disasm (repair disasm build pairs p) := by
  have after := add_logged disasm p pairs logged fresh silent
  rw [repair]
  split
  · exact logged
  · cases rebuilt : rebuild disasm build (p.add pairs).files with
    | none => exact after
    | some files => exact rebuild_fresh disasm build (p.add pairs) files after rebuilt

/-- The inner loop keeps the log: each of its repairs is for what the branch pass has just
missed. -/
theorem backbranches_kept (replies : Nat → InnerReply) (left count : Nat) (p : Progress)
    (logged : Logged disasm p)
    (fresh : Fresh disasm p) : Kept disasm (backbranches disasm replies left count p) := by
  induction left generalizing count p with
  | zero => exact ⟨logged, fresh⟩
  | succ left inductionHypothesis =>
    rw [backbranches]
    split
    · exact logged
    split
    · exact ⟨logged, fresh⟩
    · have step := repair_kept disasm (replies count).build _ p logged fresh
        (missing_silent disasm p.files.dump logged.lists (replies count).tree)
      cases repaired : repair disasm (replies count).build
          (found missingRe (branchOutput p.files.dump (replies count).tree)) p with
      | exit code q =>
        rw [repaired] at step
        exact step
      | next q =>
        rw [repaired] at step
        exact inductionHypothesis (count + 1) q step.1 step.2

/-- A round keeps the log: its repair is for what the audit has just found, and the inner loop
follows. -/
theorem round_kept (reply : RoundReply) (p : Progress) (logged : Logged disasm p)
    (fresh : Fresh disasm p) :
    Kept disasm (round disasm reply p) := by
  rw [round]
  split
  · exact logged
  · have step := repair_kept disasm reply.build _ p logged fresh
      (violations_silent disasm p.files.dump logged.lists reply.tree)
    cases repaired :
      repair disasm reply.build (found violRe (auditOutput p.files.dump reply.tree)) p with
    | exit code q =>
      rw [repaired] at step
      exact step
    | next q =>
      rw [repaired] at step
      have inner := backbranches_kept disasm reply.inner 5 0 q step.1 step.2
      cases ended : backbranches disasm reply.inner 5 0 q with
      | exit code r =>
        rw [ended] at inner
        simpa only [ended] using inner
      | next r =>
        rw [ended] at inner
        simp only [ended]
        split
        · exact inner
        · exact inner.1

/-- The record of a whole run is logged, by induction on the rounds that are left: each keeps the
log, and leaves the table fresh when it goes on. -/
theorem rounds_logged (replies : Nat → RoundReply) (left count : Nat) (p : Progress)
    (logged : Logged disasm p)
    (fresh : Fresh disasm p) : Logged disasm (rounds disasm replies left count p).2 := by
  induction left generalizing count p with
  | zero => exact logged
  | succ left inductionHypothesis =>
    have step := round_kept disasm (replies count) p logged fresh
    rw [rounds]
    cases ended : round disasm (replies count) p with
    | exit code q =>
      rw [ended] at step
      exact step
    | next q =>
      rw [ended] at step
      exact inductionHypothesis (count + 1) q step.1 step.2

/-- Where the table lists the sections of the disassembly, as every regenerated one does, an
entry that is written for a finding settles it, and over a whole run no section and target
gets two entries, suppressed functions apart. A run regenerates the table after each set of
entries, so the table keeps listing the sections, and starts every function it was given. -/
theorem sweep_settles (s : State) (lists : Lists disasm s.dump) :
    (∀ pairs, ∀ a ∈ addEntries s.dump s.extra pairs, Settles disasm s pairs a) ∧
      ∀ replies, (places disasm (main disasm replies s).2.added).Nodup := by
  constructor
  · intro pairs a written
    exact addEntries_settles disasm s lists pairs a written
  · intro replies
    have start : Logged disasm ⟨s, []⟩ := ⟨lists, by simp, by simp, by simp [places]⟩
    exact (rounds_logged disasm replies 11 1 ⟨s, []⟩ start (by simp [Fresh])).once

/-- The two overlays of one slot as the disassembly has them. -/
def slotDisassembly : Disassembly := ⟨sharedSlot.dump, [], [], by decide⟩

/-- The entry for the branch inside a function of `ovl_e` ends where the function does. -/
theorem slot_settled :
    Settles slotDisassembly sharedSlot {toLex (str "ovl_e", 0x800E4514)} ⟨str "ovl_e", 0x800E4514,
      0x624⟩ ∧
      ∀ replies, (places slotDisassembly
        (main slotDisassembly replies sharedSlot).2.added).Nodup := by
  obtain ⟨settled, once⟩ := sweep_settles slotDisassembly sharedSlot rfl
  refine ⟨settled _ _ ?_, once⟩
  have stop : spanEnd sharedSlot.dump (str "ovl_e") 0x800E4514 = some 0x800E4B38 := by
    decide +kernel
  have empty : sharedSlot.extra = [] := rfl
  simp [addEntries, stop, empty]

/-! ## A stale table -/

/-- The disassembly after a section has been merged away. -/
def mergedDisassembly : Disassembly where
  sections := [⟨str "entry", 0x1000, 0x80000400, 0x1000, [⟨str "func_80000500", 0x80000500, 0x20⟩]⟩]
  skip := []
  rename := []
  named := by decide

/-- A table that still lists the section: `nm_sweep` audits before it regenerates. -/
def staleTable : State where
  dump := [⟨str "entry", 0x1000, 0x80000400, 0x1000, [⟨str "func_80000500", 0x80000500, 0x20⟩]⟩,
    ⟨str "ovl_e", 0x144BE0, 0x800D9960, 0x65000, [⟨str "func_800E4400", 0x800E4400, 0x738⟩]⟩]
  extra := []
  manualStubs := []

/-- A function that calls into the middle of a function of that section. -/
def staleCaller : List Line :=
  [str "RECOMP_FUNC void func_80000500(uint8_t* rdram, recomp_context* ctx) \x7b",
    str "    func_800E4514(rdram, ctx);", str ";\x7d"]

/-- The finding that `nm_sweep` reads from the audit of the stale table. -/
def staleFinding : Finset (Line ×ₗ Nat) := found violRe (auditOutput staleTable.dump [staleCaller])

/-- An entry is written for the finding, but the regenerated table has no such section: it was
merged into another one after the table was made. -/
theorem staleTable_unsettled : ¬ ∀ a ∈ addEntries staleTable.dump staleTable.extra staleFinding,
    Settles mergedDisassembly staleTable staleFinding a := by
  have finding : staleFinding = {toLex (str "ovl_e", 0x800E4514)} := by decide +kernel
  have stop : spanEnd staleTable.dump (str "ovl_e") 0x800E4514 = some 0x800E4B38 := by
    decide +kernel
  have empty : staleTable.extra = [] := rfl
  have written : addEntries staleTable.dump staleTable.extra staleFinding =
      [⟨str "ovl_e", 0x800E4514, 0x624⟩] := by
    simp [finding, addEntries, stop, empty]
  intro settled
  have starts :=
    (settled ⟨str "ovl_e", 0x800E4514, 0x624⟩ (written ▸ List.mem_singleton_self _)).starts
    (by decide) [entryLine (str "ovl_e") 0x800E4514 0x624]
    (GenSymbols.main ⟨mergedDisassembly.sections, [entry (str "ovl_e") 0x800E4514 0x624], [], []⟩)
    (by rw [written, empty]; exact List.Subset.refl _) (by decide +kernel)
  exact absurd starts (by decide +kernel)

end NoMercyRecomp.Sweep
