import ThinProvisioning.Word
import ThinProvisioning.EState
import ThinProvisioning.Thin.Ir
import ThinProvisioning.Thin.RunBuilder
import ThinProvisioning.Thin.Dump.Model
import ThinProvisioning.Thin.Dump.ReadFor
import ThinProvisioning.Thin.Dump.Entries
import ThinProvisioning.Thin.Dump.Trace
import ThinProvisioning.Thin.Dump.Protocol
import ThinProvisioning.Thin.Dump.Output
import ThinProvisioning.Thin.Migrate.Base
import ThinProvisioning.PData.SpaceMap.AllocatedBlocks
import ThinProvisioning.Commands.Utils
import ThinProvisioning.Tests.ThinXmlGenerator.Allocator
import ThinProvisioning.Tests.ThinXmlGenerator.Snapshot
import ThinProvisioning.Tests.ThinXmlGenerator.Generators
import ThinProvisioning.Tests.ThinXmlGenerator.Fragmented
