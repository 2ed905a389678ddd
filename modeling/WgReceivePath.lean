import WgReceivePath.Lib.Machine
import WgReceivePath.Lib.Adjacent
import WgReceivePath.Lib.Sums
import WgReceivePath.PrevQueue
import WgReceivePath.ReplayCounter
import WgReceivePath.Stall
import WgReceivePath.State
import WgReceivePath.Step
import WgReceivePath.Transitions
import WgReceivePath.PacketLife
import WgReceivePath.QueueOrder
import WgReceivePath.Delivery
import WgReceivePath.Poll
import WgReceivePath.Wake
import WgReceivePath.Stranding
import WgReceivePath.References
import WgReceivePath.Teardown
import WgReceivePath.Drain
import WgReceivePath.Pristine
import WgReceivePath.Occupancy
import WgReceivePath.DiagPeek
import WgReceivePath.ReplayWindow
import WgReceivePath.Episodes
import WgReceivePath.Budget
import WgReceivePath.Batch
import WgReceivePath.Lib.PyFloat
import WgReceivePath.Lib.PyText
import WgReceivePath.Lib.PyRun
import WgReceivePath.Lib.Randomization
import WgReceivePath.Analyze.SignFlip
import WgReceivePath.Lib.Dict
import WgReceivePath.Analyze.Holm
import WgReceivePath.Analyze.Permutation
import WgReceivePath.Analyze.Artifact
import WgReceivePath.Analyze.Sidecars
import WgReceivePath.Analyze.Load
import WgReceivePath.Analyze.Labels
import WgReceivePath.Analyze.Gates
import WgReceivePath.Analyze.Accept
import WgReceivePath.Analyze.Conditions
import WgReceivePath.Analyze.Report
import WgReceivePath.Analyze.Run
import WgReceivePath.Analyze.Output
import WgReceivePath.Analyze.GateB
import WgReceivePath.Analyze.Campaign
import WgReceivePath.Analyze.OperatingPoint
import WgReceivePath.Analyze.FailClosed
import WgReceivePath.Lib.LongestPrefix
import WgReceivePath.AllowedIps.Bits
import WgReceivePath.AllowedIps.Table
import WgReceivePath.AllowedIps.View
import WgReceivePath.AllowedIps.Search
import WgReceivePath.AllowedIps.Update
import WgReceivePath.AllowedIps.Invariant
import WgReceivePath.AllowedIps.Insert
import WgReceivePath.AllowedIps.Remove
import WgReceivePath.AllowedIps.Free
import WgReceivePath.AllowedIps.Refinement
import WgReceivePath.AllowedIps.Dump
import WgReceivePath.Session.Model
import WgReceivePath.Session.Transitions
import WgReceivePath.Session.Packets
import WgReceivePath.Session.Lifetime
import WgReceivePath.Session.Nonces
import WgReceivePath.Session.Confirmation
import WgReceivePath.Lib.Symbolic
import WgReceivePath.Noise.Handshake
import WgReceivePath.Noise.Terms
import WgReceivePath.Noise.Transcript
import WgReceivePath.Noise.Agreement
import WgReceivePath.Noise.Protocol
import WgReceivePath.Noise.Schedule
import WgReceivePath.Noise.Attacker
import WgReceivePath.Noise.Security
