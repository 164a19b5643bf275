import OutputDescriptor.Proofs.Checksum.Detection
import OutputDescriptor.Proofs.Checksum.Session
import OutputDescriptor.Proofs.Checksum.Suffix
import OutputDescriptor.Proofs.Evaluation.KeyOrder
import OutputDescriptor.Proofs.Evaluation.Limits
import OutputDescriptor.Proofs.Evaluation.PublicOutputs
import OutputDescriptor.Proofs.Key.IndexSpace
import OutputDescriptor.Proofs.Key.Notation
import OutputDescriptor.Proofs.Output.AddressText
import OutputDescriptor.Proofs.Output.PushForms
import OutputDescriptor.Proofs.Script.OptionEffect
import OutputDescriptor.Proofs.Script.Refusals
