import InfinityClicker.Core.Machine
import InfinityClicker.Core.Presses
import InfinityClicker.Core.Mailbox
import InfinityClicker.Core.Purge
import InfinityClicker.Core.RoundedGrid
import InfinityClicker.Core.FreshName
import InfinityClicker.Core.DecimalRounding
import InfinityClicker.Core.NearestRank
import InfinityClicker.Core.TimedCounts
import InfinityClicker.Core.RingBuffer
import InfinityClicker.Core.Json
import InfinityClicker.Core.JsonReads
import InfinityClicker.Core.JsonRoundTrip
import InfinityClicker.Core.NumberTokens
import InfinityClicker.Core.StringEscapes
import InfinityClicker.Core.JsonFixedPoint
import InfinityClicker.Core.JsonStored
import InfinityClicker.Core.Folder
import InfinityClicker.Core.FileSteps
import InfinityClicker.Core.Log
import InfinityClicker.Input.SenderRecord
import InfinityClicker.Input.KillSafety
import InfinityClicker.Input.CrashPath
import InfinityClicker.Input.Guardian
import InfinityClicker.Input.GuardianOutcome
import InfinityClicker.Input.StuckKeys
import InfinityClicker.Input.PressMetadata
import InfinityClicker.Input.ActionShape
import InfinityClicker.Input.ProgramTiming
import InfinityClicker.Scheduler.Modes
import InfinityClicker.Scheduler.LateSlots
import InfinityClicker.Scheduler.PreciseWaiter
import InfinityClicker.Scheduler.SpinBudget
import InfinityClicker.Scheduler.WakeMargin
import InfinityClicker.Scheduler.OversleepModel
import InfinityClicker.Telemetry.LogHistogram
import InfinityClicker.Telemetry.Stats
import InfinityClicker.Telemetry.RollingRate
import InfinityClicker.Telemetry.SlotRing
import InfinityClicker.Telemetry.SeqLock
import InfinityClicker.Scheduler.Engine
import InfinityClicker.Scheduler.ActionSpan
import InfinityClicker.Scheduler.ProgramStructure
import InfinityClicker.Scheduler.EngineLoop
import InfinityClicker.Scheduler.CommandProtocol
import InfinityClicker.Scheduler.ArmedState
import InfinityClicker.Scheduler.NothingHeld
import InfinityClicker.Scheduler.TriggerBatches
import InfinityClicker.Scheduler.EmergencyStop
import InfinityClicker.Scheduler.Disarm
import InfinityClicker.Scheduler.Gate
import InfinityClicker.Scheduler.Grid
import InfinityClicker.Scheduler.ConfigUpdates
import InfinityClicker.Scheduler.ActionCount
import InfinityClicker.Scheduler.TriggerStops
import InfinityClicker.Scheduler.ProtocolRefinement
import InfinityClicker.Scheduler.Backpressure
import InfinityClicker.Scheduler.Totals
import InfinityClicker.Scheduler.FinishedRun
import InfinityClicker.Scheduler.MaxCounts
import InfinityClicker.App.LabRun
import InfinityClicker.Trigger.Edges
import InfinityClicker.Trigger.Repeats
import InfinityClicker.Trigger.LoneModifier
import InfinityClicker.Trigger.Hooks
import InfinityClicker.Trigger.NoFeedback
import InfinityClicker.Trigger.TargetList
import InfinityClicker.Trigger.MessageLoop
import InfinityClicker.Trigger.MouseSources
import InfinityClicker.Trigger.HookedTrigger
import InfinityClicker.Trigger.PressLog
import InfinityClicker.Trigger.Swallow
import InfinityClicker.Trigger.ForegroundGate
import InfinityClicker.Profiles.Fields
import InfinityClicker.Profiles.Profile
import InfinityClicker.Profiles.LoadSave
import InfinityClicker.Profiles.ProfileStore
import InfinityClicker.Profiles.StoreInvariant
import InfinityClicker.Profiles.SilentLoss
import InfinityClicker.Profiles.StoredScans
import InfinityClicker.Profiles.SaveSteps
import InfinityClicker.Profiles.StoredIntegers
import InfinityClicker.Profiles.Reload
import InfinityClicker.App.ClampWarning
import InfinityClicker.App.Capture
import InfinityClicker.App.CapturedChords
import InfinityClicker.App.Persistence
import InfinityClicker.App.Configs
import InfinityClicker.App.HeldTrigger
