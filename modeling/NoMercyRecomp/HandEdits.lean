import NoMercyRecomp.Recompiled

/-!
# Re-applying the hand edits

`readd_hand_edits` carries the edits that are made to generated files by hand. Each edit
looks for its own mark and, where it is missing, inserts a block behind an exact line of
one function, or puts a block in the place of such a line. Two edits that were retired
are taken out of files that still hold them.

An edit fails when its file, its function or its anchor is not found as often as it
should be; the run then ends with another status than zero.
-/

namespace NoMercyRecomp.HandEdits

open TextScan Recompiled

/-! ## Lines and functions of a file -/

/-- `rstrip('\r\n')` -/
def chomp (line : Line) : Line := line.rdropWhile (fun c => c == '\r' || c == '\n')

/-- `startswith` -/
def startsWith (text line : Line) : Bool := (lit text line).isSome

/-- Some line contains the mark. -/
def marked (mark : Line) (lines : List Line) : Bool := lines.any (occurs mark)

/-- `sig`: the start of a function's header line. -/
def signature (func : Line) : Line := 'R' :: (str "ECOMP_FUNC void " ++ (func ++ ['(']))

/-- `body_range`: the lines before a function, those of its range, and those from its
closing line on. -/
def bodyRange (func : Line) (lines : List Line) : Option (List Line × List Line × List Line) :=
  match lines.span (fun line => !startsWith (signature func) line) with
  | (_, []) => none
  | (before, first :: rest) =>
    match rest.span (fun line => chomp line != [';', '\x7d']) with
    | (_, []) => none
    | (inner, close :: after) => some (before, first :: inner, close :: after)

/-- `lines[slice(*_body(lines, func))]` -/
def bodySlice (func : Line) (lines : List Line) : List Line :=
  match lines.span (fun line => !startsWith (signature func) line) with
  | (_, []) => lines
  | (_, first :: rest) => first :: rest.takeWhile (fun line => chomp line != [';', '\x7d'])

/-- Every line with the anchor's text becomes the given lines. -/
def atAnchor (anchor : Line) (become : Line → List Line) (lines : List Line) : List Line :=
  lines.flatMap (fun line => if chomp line = anchor then become line else [line])

/-- The function with its anchor lines edited, when there are as many as expected. -/
def editRange (func anchor : Line) (expect : Nat) (become : Line → List Line) (lines : List Line) :
    Option (List Line) := do
  let (before, body, after) ← bodyRange func lines
  if body.countP (fun line => chomp line = anchor) = expect then
    some (before ++ (atAnchor anchor become body ++ after))
    else none

/-- `insert_after`, and `_insert_after_all` with the number of sites. -/
def insertAfter (func anchor : Line) (text : List Line) (expect : Nat) (lines : List Line) :
    Option (List Line) :=
  editRange func anchor expect (fun line => line :: text) lines

/-- `replace_line` -/
def replaceLine (func anchor : Line) (text : List Line) (lines : List Line) : Option (List Line) :=
  editRange func anchor 1 (fun _ => text) lines

/-- `insert_after_includes` -/
def insertAfterIncludes (text lines : List Line) : List Line :=
  lines.rdropWhile (fun line => !startsWith (str "#include") line) ++
    (text ++ lines.rtakeWhile (fun line => !startsWith (str "#include") line))

/-- `ensure_include` -/
def ensureInclude (why : Line) (lines : List Line) : List Line :=
  if lines.any (startsWith (str "#include <stdio.h>")) then lines
    else (str "#include <stdio.h>  /* [nomercy HAND-EDIT] " ++ (why ++ str " */")) :: lines

/-! ## Texts -/

/-- `WCW_MATRIX_DECLS` -/
def wcwMatrixDecls : List Line :=
  [str "#include <string.h>  /* [wcw fix] memcpy for the matrix hook */",
    str "/* [wcw fix] 60Hz matrix hooks, implemented in RT64 (rt64_rsp.cpp)." ++
      str " */",
    str "extern void wcw_interp_process_multiply(uint32_t destAddr, uint32_t" ++
      str " opBAddr, uint32_t srcAddr, const float* aMatrix16, const float*" ++
      str " bMatrix16);",
    str "extern void wcw_interp_invalidate_local_matrix(uint32_t destAddr);"]

/-- `WCW_MATRIX_HOOK` -/
def wcwMatrixHook : List Line :=
  [str "    \x7b /* [wcw fix] 60Hz: func_80001E08 is a 4x4 multiply (out = A *" ++
      str " B). When B is the camera",
    str "         matrix (0x80062BA8), pass A (the object's" ++
      str " camera-independent matrix) and B to RT64,",
    str "         keyed by the output address; otherwise drop any stale" ++
      str " entry for that address. */",
    str "        uint32_t wcw_dst = (uint32_t)ctx->r6;",
    str "        if ((uint32_t)ctx->r5 == 0x80062BA8u) \x7b",
    str "            float wcw_a[16], wcw_b[16];",
    str "            for (int wcw_i = 0; wcw_i < 16; wcw_i++) \x7b",
    str "                uint32_t wcw_abits = (uint32_t)MEM_W(ctx->r4, wcw_i" ++
      str " * 4);",
    str "                uint32_t wcw_bbits = (uint32_t)MEM_W(ctx->r5, wcw_i" ++
      str " * 4);",
    str "                memcpy(&wcw_a[wcw_i], &wcw_abits, sizeof(float));",
    str "                memcpy(&wcw_b[wcw_i], &wcw_bbits, sizeof(float));",
    str "            \x7d",
    str "            wcw_interp_process_multiply(wcw_dst, (uint32_t)ctx->r5," ++
      str " (uint32_t)ctx->r4, wcw_a, wcw_b);",
    str "        \x7d",
    str "        else \x7b",
    str "            wcw_interp_invalidate_local_matrix(wcw_dst);",
    str "        \x7d",
    str "    \x7d"]

/-- `WCW_F2L_DECLS` -/
def wcwF2lDecls : List Line :=
  [str "/* [wcw fix] 60Hz matrix hook, implemented in RT64 (rt64_rsp.cpp)." ++
      str " */",
    str "extern void wcw_interp_forward_local_matrix(uint32_t srcAddr," ++
      str " uint32_t dstAddr);"]

/-- `WCW_F2L_HOOK` -/
def wcwF2lHook : List Line :=
  [str "    /* [wcw fix] 60Hz: func_80038880 is guMtxF2L. Move the matrix" ++
      str " hook's entry from the float",
    str "       source (a0) to the fixed-point destination (a1) that" ++
      str " gSPForceMatrix uploads. */",
    str "    wcw_interp_forward_local_matrix((uint32_t)ctx->r4," ++
      str " (uint32_t)ctx->r5);"]

/-- `WCW_RESYNC_NULL_GUARD` -/
def wcwResyncNullGuard : List Line :=
  [str "    /* [wcw fix] netplay: after a resync this lighting-buffer" ++
      str " pointer can be null; skip the",
    str "       call instead of writing through it. */",
    str "    if (ctx->r4 != 0) \x7b",
    str "        func_80021B10(rdram, ctx);",
    str "    \x7d"]

/-- `DCC4_PROBE` -/
def dcc4Probe : List Line :=
  [str "    \x7b /* [nomercy][dcc4] portrait-record probe + airbag (bringup" ++
      str " session 2): the",
    str "         char-select crash reads s2=[[elem+0x68]+4] with s2 =" ++
      str " 0xA2/0xB2/0xC2/0xD2",
    str "         (stride-0x10 spaced) => rec+4 holds an UNRELOCATED file" ++
      str " offset. Log the",
    str "         values; on a bad table pointer, skip the draw instead of" ++
      str " faulting. */",
    str "        static int nm_dcc4_ok = 0, nm_dcc4_bad = 0;",
    str "        uint32_t nm_elem = (uint32_t)ctx->r5;",
    str "        uint32_t nm_rec = 0, nm_tbl = 0; int nm_rec_ok = 0," ++
      str " nm_tbl_ok = 0;",
    str "        if (nm_elem >= 0x80000000u && nm_elem < 0x80800000u) \x7b",
    str "            nm_rec = (uint32_t)MEM_W(ctx->r5, 0X68);",
    str "            nm_rec_ok = (nm_rec >= 0x80000000u && nm_rec <" ++
      str " 0x80800000u);",
    str "            if (nm_rec_ok) \x7b",
    str "                nm_tbl = (uint32_t)MEM_W((gpr)(int32_t)nm_rec, 0X4);",
    str "                nm_tbl_ok = (nm_tbl >= 0x80000000u && nm_tbl <" ++
      str " 0x80800000u);",
    str "            \x7d",
    str "        \x7d",
    str "        if (((!nm_rec_ok || !nm_tbl_ok) && nm_dcc4_bad < 200) ||" ++
      str " nm_dcc4_ok < 12) \x7b",
    str "            fprintf(stderr, \"[nm][dcc4]%s elem=%08X t60=%04X" ++
      str " id62=%04X f57=%02X rec=%08X tbl=%08X\\n\",",
    str "                (!nm_rec_ok || !nm_tbl_ok) ? \" BAD\" : \"\", nm_elem,",
    str "                (nm_elem >= 0x80000000u) ?" ++
      str " (uint32_t)MEM_HU(ctx->r5, 0X60) : 0u,",
    str "                (nm_elem >= 0x80000000u) ?" ++
      str " (uint32_t)MEM_HU(ctx->r5, 0X62) : 0u,",
    str "                (nm_elem >= 0x80000000u) ?" ++
      str " (uint32_t)MEM_BU(ctx->r5, 0X57) : 0u,",
    str "                nm_rec, nm_tbl);",
    str "            if (!nm_rec_ok || !nm_tbl_ok) nm_dcc4_bad++; else" ++
      str " nm_dcc4_ok++;",
    str "        \x7d",
    str "        if (!nm_rec_ok || !nm_tbl_ok) \x7b",
    str "            return; /* airbag: nothing executed yet (pre-prologue)," ++
      str " out-param DL",
    str "                       cursor *a0 left untouched = element draws" ++
      str " nothing */",
    str "        \x7d",
    str "    \x7d"]

/-- `WCW_CULL_DECLS` -/
def wcwCullDecls : List Line :=
  [str "/* [wcw fix] widescreen cull scale, implemented in" ++
      str " src/game/recomp_api.cpp. */",
    str "extern double wcw_widescreen_cull_scale(void);"]

/-- `WCW_CULL_EDIT` -/
def wcwCullEdit : List Line :=
  [str "    /* [wcw fix] widescreen cull: the horizontal limit follows the" ++
      str " screen width (aki-roadmap#47). */",
    str "    c1cs = (ctx->f22.d * wcw_widescreen_cull_scale()) < ctx->f0.d;"]

/-- The latch of the camera matrices. -/
def rtCameraLatch : List Line :=
  [str "    \x7b /* [nomercy][rt] camera latch: a0 = V, a1 = P, a2 = product" ++
      str " (the camera matrix when called from the camera builder) */",
    str "      extern void wcw_rt_latch_camera_multiply(uint8_t* rdram," ++
      str " uint32_t view_vaddr, uint32_t proj_vaddr, uint32_t dest_vaddr);",
    str "      wcw_rt_latch_camera_multiply(rdram, (uint32_t)ctx->r4," ++
      str " (uint32_t)ctx->r5, (uint32_t)ctx->r6); \x7d"]

/-- The hand-over of the camera. -/
def rtEmitCamera : List Line :=
  [str "    \x7b /* [nomercy][rt] after the frame DL head is returned in v0 */",
    str "      extern uint32_t wcw_rt_emit_camera(uint8_t* rdram, uint32_t" ++
      str " gfx);",
    str "      ctx->r2 = (int64_t)(int32_t)wcw_rt_emit_camera(rdram," ++
      str " (uint32_t)ctx->r2); \x7d"]

/-- `WCW_CULL_COMPARE` -/
def wcwCullCompare : Line := str "    c1cs = ctx->f22.d < ctx->f0.d;"

/-- `WCW_CULL_X_LOAD` -/
def wcwCullXLoad : Line := str "    ctx->f12.u32l = MEM_W(ctx->r16, 0X18);"

/-! ## The edits -/

/-- `[memsz4]`, retired: its lines are taken out. -/
def stripMemsz4 (lines : List Line) : List Line :=
  if marked (str "[nomercy][memsz4]") lines then
    lines.filter (fun line => !occurs (str "[nomercy][memsz4]") line &&
      !occurs (str "MEM_W(0X80000318, 0) = 0X400000;") (chomp line))
  else lines

/-- The old place of the camera latch: the first such line and the two behind it. -/
def oldLatch : Line := str "[nomercy][rt] camera latch: a1 = P, a2 = V"

def stripLatch (lines : List Line) : List Line :=
  match lines.span (fun line => !occurs oldLatch line) with
  | (_, []) => lines
  | (before, found) => before ++ found.drop 3

/-- `[dcc4]` -/
def dcc4 (lines : List Line) : Option (List Line) :=
  if marked (str "[nomercy][dcc4]") lines then some lines
    else insertAfter (str "func_8011DCC4") (str "    int c1cs = 0;") dcc4Probe 1
      (ensureInclude (str "dcc4 portrait probe") lines)

/-- One site of the camera hand-off. -/
def rtEdit (func anchor : Line) (text lines : List Line) : Option (List Line) :=
  if marked (str "[nomercy][rt]") (bodySlice func lines) then some lines
    else insertAfter func anchor text 1 lines

def rtLatch : List Line → Option (List Line) :=
  rtEdit (str "func_80001E08") (str "    int c1cs = 0;") rtCameraLatch

def rtEmit : List Line → Option (List Line) :=
  rtEdit (str "func_80002FA4") (str "    func_80002BB4(rdram, ctx);") rtEmitCamera

def wcwMatrix (lines : List Line) : Option (List Line) :=
  if marked (str "wcw_interp_process_multiply") lines then some lines
    else (insertAfter (str "func_80001E08") (str "    int c1cs = 0;") wcwMatrixHook 1 lines).map
      (insertAfterIncludes wcwMatrixDecls)

def wcwF2l (lines : List Line) : Option (List Line) :=
  if marked (str "wcw_interp_forward_local_matrix") lines then some lines
    else (insertAfter (str "func_80038880") (str "    int c1cs = 0;") wcwF2lHook 1 lines).map
      (insertAfterIncludes wcwF2lDecls)

def wcwResyncNull (lines : List Line) : Option (List Line) :=
  if marked (str "[wcw fix] netplay: after a resync") lines then some lines
    else replaceLine (str "func_80022CEC")
      (str "    func_80021B10(rdram, ctx);") wcwResyncNullGuard lines

/-- The first line with the text becomes the given lines. -/
def replaceFirstLine (anchor : Line) (text lines : List Line) : List Line :=
  match lines.span (fun line => chomp line != anchor) with
  | (_, []) => lines
  | (above, _ :: below) => above ++ (text ++ below)

/-- `widescreen_cull_edit`: the first of two compares behind the only x load. -/
def widescreenCullEdit (lines : List Line) : Option (List Line) := do
  let (before, body, after) ← bodyRange (str "func_800024F8") lines
  match body.span (fun line => chomp line != wcwCullXLoad) with
  | (_, []) => none
  | (above, load :: below) =>
    if below.countP (fun line => chomp line = wcwCullXLoad) = 0 ∧
        below.countP (fun line => chomp line = wcwCullCompare) = 2 then
      some (before ++ (above ++ load ::
        (replaceFirstLine wcwCullCompare wcwCullEdit below ++ after)))
    else none

def wcwCull (lines : List Line) : Option (List Line) :=
  if marked (str "wcw_widescreen_cull_scale") lines then some lines
    else (widescreenCullEdit lines).map (insertAfterIncludes wcwCullDecls)

/-! ## The run -/

/-- Load a file, edit it and save it. The names are those of the files. -/
def editFile (name : Line) (edit : List Line → Option (List Line)) :
    List Line → List (List Line) → Option (List (List Line))
  | own :: names, file :: files =>
    if own = name then (edit file).map (· :: files)
      else (editFile name edit names files).map (file :: ·)
  | _, _ => none

/-- The edits of each file in the order of `main`; those of different files do not meet. -/
def registry : List (Line × (List Line → Option (List Line))) :=
  [(str "funcs_0.c", fun lines => some (stripMemsz4 lines)),
    (str "funcs_55.c", dcc4),
    (str "funcs_0.c", fun lines => some (stripLatch lines)),
    (str "funcs_0.c", rtLatch),
    (str "funcs_1.c", rtEmit),
    (str "funcs_0.c", wcwMatrix),
    (str "funcs_16.c", wcwF2l),
    (str "funcs_10.c", wcwResyncNull),
    (str "funcs_1.c", wcwCull)]

/-- `main`: the files after the run, when it exits with zero. -/
def main (names : List Line) (files : List (List Line)) : Option (List (List Line)) :=
  registry.foldlM (fun files entry => editFile entry.1 entry.2 names files) files

end NoMercyRecomp.HandEdits
