import BootLoader.Boot.Course
import BootLoader.Bringup.Rehearsal
import BootLoader.Config
import BootLoader.Journal.Console
import BootLoader.Linking
import BootLoader.Main
import BootLoader.Processor.Trace
import BootLoader.Proofs.Address
import BootLoader.Proofs.Alignment
import BootLoader.Proofs.Paging.Geometry
import BootLoader.Proofs.Paging.Codec
import BootLoader.Proofs.Paging.Storage
import BootLoader.Proofs.Paging.Edits
import BootLoader.Proofs.Paging.Forest
import BootLoader.Proofs.Paging.Planning
import BootLoader.Proofs.Paging.Performing
import BootLoader.Proofs.Paging.Translation
import BootLoader.Proofs.Paging.Session
import BootLoader.Proofs.Paging.Refinement
import BootLoader.Proofs.Paging.Steps
import BootLoader.Proofs.Paging.Account
import BootLoader.Proofs.Paging.Upward
import BootLoader.Proofs.Paging.Atomic
import BootLoader.Proofs.Paging.Planting
import BootLoader.Proofs.Paging.Layout
import BootLoader.Proofs.Paging.Collision
import BootLoader.Proofs.Paging.Canonical
import BootLoader.Proofs.Paging.Filling
import BootLoader.Proofs.Image.Region
import BootLoader.Proofs.Paging.Ranges
import BootLoader.Proofs.Paging.Assembly
import BootLoader.Proofs.Paging.RoundTrip
import BootLoader.Proofs.Paging.Expressible
import BootLoader.Proofs.Boot.Meeting
import BootLoader.Proofs.Boot.Safety
import BootLoader.Proofs.Boot.Entry
import BootLoader.Proofs.Boot.Launch
import BootLoader.Proofs.Boot.Running
import BootLoader.Proofs.Boot.Together
import BootLoader.Proofs.Bringup.Park
import BootLoader.Proofs.Bringup.Orderly
import BootLoader.Proofs.Bringup.Delivery
import BootLoader.Proofs.Boot.Publication
import BootLoader.Proofs.Bringup.Records
import BootLoader.Proofs.Bringup.Parking
import BootLoader.Proofs.Boot.Discovery
import BootLoader.Proofs.Paging.Slots
import BootLoader.Proofs.Paging.Visiting
import BootLoader.Proofs.Paging.Raising
import BootLoader.Proofs.Paging.Counting
import BootLoader.Proofs.Paging.Lookup
import BootLoader.Proofs.Paging.Verdict
import BootLoader.Proofs.Paging.Prefixes
import BootLoader.Proofs.Paging.Commuting
import BootLoader.Proofs.Paging.Rounding
import BootLoader.Proofs.Paging.Faultless
import BootLoader.Proofs.Paging.Total
import BootLoader.Proofs.Boot.Advance
import BootLoader.Proofs.Boot.Secondaries
import BootLoader.Proofs.Boot.Release
import BootLoader.Proofs.DeviceTree.Listing
import BootLoader.Proofs.Boot.Census
import BootLoader.Proofs.Bringup.Resolution
import BootLoader.Proofs.Bringup.ReleaseMap
import BootLoader.Proofs.Text.Cut
import BootLoader.Proofs.Journal.Line
import BootLoader.Proofs.Journal.Memory
import BootLoader.Proofs.Image.Relocation
import BootLoader.Proofs.Paging.Descriptor
import BootLoader.Proofs.Paging.Conflict
import BootLoader.Proofs.Paging.Listing
import BootLoader.Proofs.Paging.Frames
import BootLoader.Proofs.Alignment
