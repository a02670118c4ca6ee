import Gap.Lib.Machine
import Gap.Lib.Ring
import Gap.Lib.Bytes
import Gap.Lib.Outbox
import Gap.Bcp.Delivery
import Gap.Bcp.Driver
import Gap.Bcp.Frame
import Gap.Bcp.WakeUp
import Gap.Bcp.InFlight
import Gap.Bcp.Idle
import Gap.Tunnel.Packet
import Gap.Tunnel.Prefixes
import Gap.Tunnel.Server
import Gap.Tunnel.Steps
import Gap.Tunnel.Routing
import Gap.Tunnel.Closing
import Gap.Tunnel.Learning
import Gap.Tunnel.Owner
import Gap.Tunnel.Client
import Gap.Tunnel.Framing
import Gap.Tunnel.Descriptors
import Gap.Tunnel.Backpressure
import Gap.Tunnel.AssignmentsFile
import Gap.Tunnel.Delegation
import Gap.Tunnel.Cache
import Gap.Bcp.Sniff
import Gap.Bcp.ChipSelect
import Gap.Bcp.Radio
import Gap.Lib.Claim
import Gap.Lib.Mailbox
import Gap.Bcp.Exclusive
import Gap.Bcp.UserMailbox
import Gap.Bcp.Handover
import Gap.Bcp.Decoding
import Gap.Bcp.Report
import Gap.Bcp.ReadCall
import Gap.Tunnel.Bounds
import Gap.Lib.Ipv6Text
import Gap.Tunnel.Decision
import Gap.Tunnel.Assigned
import Gap.Tunnel.Malformed
import Gap.Lib.Loop
import Gap.Tunnel.Termination
import Gap.Lib.Edge
import Gap.Tunnel.EdgeTriggered
import Gap.Tunnel.Reconnect
import Gap.Bcp.AdvReportParse
import Gap.Bcp.ScanStart
import Gap.Bcp.FrameSize
import Gap.Bcp.Probe
import Gap.Tunnel.ScanBounds
import Gap.Lib.Along
import Gap.Lib.Potential
import Gap.Lib.Stutter
import Gap.Bcp.Quiesce
import Gap.Bcp.Transit
import Gap.Bcp.Board
import Gap.Lib.Wires
import Gap.Tunnel.Network
import Gap.Tunnel.Destination
import Gap.Lib.Refine
import Gap.Bcp.Weave
import Gap.Bcp.Woven
import Gap.Bcp.Preempted
import Gap.Lib.WaitQueue
import Gap.Bcp.Sleepers
import Gap.Tunnel.LinkLocal
