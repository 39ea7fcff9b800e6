import JvmClass.Main
import JvmClass.Proofs.Wire.Reads
import JvmClass.Proofs.Code.Coherence
import JvmClass.Proofs.Instruction.RoundTrip
import JvmClass.Proofs.Code.Edits
import JvmClass.Proofs.Code.Linking
import JvmClass.Proofs.Instruction.Targets
import JvmClass.Proofs.Code.Entries
import JvmClass.Proofs.Code.TableEdits
import JvmClass.Proofs.Code.ReverseIndex
import JvmClass.Proofs.Code.Layout
import JvmClass.Proofs.Code.Recoding
import JvmClass.Proofs.Wire.Accepts
import JvmClass.Proofs.Wire.Faults
import JvmClass.Proofs.Text.Forms
import JvmClass.Proofs.Pool.Forms
import JvmClass.Proofs.ClassFile.Forms
import JvmClass.Proofs.ClassFile.Delimited
import JvmClass.Proofs.Verify.Following
import JvmClass.Proofs.Verify.Monotone
import JvmClass.Proofs.Verify.Fixpoint
import JvmClass.Proofs.Verify.Programs
import JvmClass.Proofs.Verify.Paths
import JvmClass.Proofs.Pool.History
import JvmClass.Proofs.Pool.Rereading
import JvmClass.Proofs.Pool.Indices
import JvmClass.Proofs.Wire.Writing
import JvmClass.Proofs.ClassFile.Rereading
import JvmClass.Proofs.Verify.Guarded
import JvmClass.Proofs.Verify.Checked
import JvmClass.Proofs.Verify.Suited
import JvmClass.Proofs.Verify.Solutions
import JvmClass.Proofs.Code.Numbered
import JvmClass.Proofs.Code.Lifting
import JvmClass.Proofs.Instruction.Consumption
import JvmClass.Proofs.Instruction.Shapes
import JvmClass.Proofs.Verify.Passes
import JvmClass.Proofs.Code.Traces
import JvmClass.Proofs.Attribute.Tables
import JvmClass.Proofs.Code.Lowering
import JvmClass.Proofs.Code.Placement
import JvmClass.Proofs.Code.Halting
import JvmClass.Proofs.Code.Redirection
import JvmClass.Proofs.Code.ProgramOrder
import JvmClass.Proofs.Code.Relifting
import JvmClass.Proofs.Code.RangeOrder
import JvmClass.Proofs.Verify.Members
import JvmClass.Proofs.Verify.Sessions
import JvmClass.Proofs.Verify.Totality
import JvmClass.Proofs.Verify.Construction
import JvmClass.Proofs.Verify.Replay
import JvmClass.Proofs.Verify.Receivers
import JvmClass.Proofs.Verify.Allocation
import JvmClass.Proofs.Instruction.Forms
import JvmClass.Proofs.Code.Chains
import JvmClass.Proofs.Code.Tightness
import JvmClass.Proofs.Code.Shrinking
import JvmClass.Proofs.Code.Relowering
import JvmClass.Proofs.Verify.Histories
import JvmClass.Proofs.Verify.AttributeNames
import JvmClass.Proofs.Code.FailedEdits
import JvmClass.Proofs.Verify.Lookups
import JvmClass.Proofs.Verify.Reports
import JvmClass.Proofs.Wire.Failures
import JvmClass.Proofs.Verify.Effort
import JvmClass.Proofs.Verify.Escape
import JvmClass.Proofs.Verify.Origins
import JvmClass.Proofs.Verify.Joins
import JvmClass.Proofs.Verify.Words
import JvmClass.Proofs.Verify.Balance
import JvmClass.Proofs.Verify.Entry
import JvmClass.Proofs.Code.Outcomes
import JvmClass.Proofs.Code.Handover
import JvmClass.Proofs.Instruction.Writable
import JvmClass.Proofs.Code.Placements
import JvmClass.Proofs.Code.Offences
import JvmClass.Proofs.Code.Freshness
import JvmClass.Proofs.Attribute.Lines
import JvmClass.Proofs.Attribute.Payloads
import JvmClass.Proofs.Code.LineTables
import JvmClass.Proofs.Instruction.Locality
import JvmClass.Proofs.TypeTrees
import JvmClass.Proofs.Text.Acceptance
import JvmClass.Proofs.Pool.Growth
import JvmClass.Proofs.Verify.Components
import JvmClass.Proofs.Slotted
import JvmClass.Proofs.Verify.Reliance
import JvmClass.Proofs.ClassFile.SettingCode
