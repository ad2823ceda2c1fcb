import NoMercyRecomp.SymbolReaders
import NoMercyRecomp.HttpQueue
import NoMercyRecomp.JumpIndex
import NoMercyRecomp.FixSwitches
import NoMercyRecomp.SwitchPlan
import NoMercyRecomp.SwitchReading
import NoMercyRecomp.SwitchGate
import NoMercyRecomp.SwitchTables
import NoMercyRecomp.LabelledFlow
import NoMercyRecomp.FixStumps
import NoMercyRecomp.StumpFlow
import NoMercyRecomp.AuditCoresidency
import NoMercyRecomp.FixBackbranches
import NoMercyRecomp.CallBinding
import NoMercyRecomp.FixSelfentry
import NoMercyRecomp.HandEdits
import NoMercyRecomp.Pipeline
import NoMercyRecomp.VirtualAudio
import NoMercyRecomp.GaussJordan
import NoMercyRecomp.CameraMatrix
import NoMercyRecomp.ByteMemory
import NoMercyRecomp.CameraHandOff
import NoMercyRecomp.HttpBody
import NoMercyRecomp.RamPeeks
import NoMercyRecomp.TextReplace
import NoMercyRecomp.BranchSpan
import NoMercyRecomp.ExtraFuncs
import NoMercyRecomp.SelfEntry
import NoMercyRecomp.RecompLoop
import NoMercyRecomp.Findings
import NoMercyRecomp.Sweep
import NoMercyRecomp.GeneratedFile
import NoMercyRecomp.HandEditLaws
import NoMercyRecomp.HandEditSteps
import NoMercyRecomp.HandEditRuns
import NoMercyRecomp.TimedEvents
import NoMercyRecomp.VirtualPads
import NoMercyRecomp.Coverage
import NoMercyRecomp.AuditSpBalance
import NoMercyRecomp.JalAudit
import NoMercyRecomp.GenMmioPatches
import NoMercyRecomp.BlockStream
import NoMercyRecomp.Md5
import NoMercyRecomp.RomHash
import NoMercyRecomp.AchievementRuntime
import NoMercyRecomp.ParsedConditions
import NoMercyRecomp.SourceChains
